import CodeAtlas.Proofs.Grammar.Totals

/-! The export statements of a tree. However one is written, it has a declaration, or it says in
another way what is exported, but never both. -/

namespace CodeAtlas

/-- Whether a part of an export statement says what is exported and is no declaration: a list, a
star, or a value. -/
def Node.isExportList (n : Node) : Bool :=
  n.role == some .value || n.kind == .exportClause || n.kind == .namespaceExport ||
    n.kind == .token && n.text == "*"

namespace Grammar

/-- How many nodes are declarations. -/
def declarationCount : Count Nat :=
  .ofTest (·.role == some .declaration) (fun _ role _ => some (role == some .declaration))
    (fun n _ hrole => by rw [hrole]; rfl) (fun n _ b hb _ => Option.some.inj hb)

/-- Whether a token lists exports is told by its text. -/
def listsExports? (kind : Kind) (role : Option Role) (text? : Option String) : Option Bool :=
  if role = some .value ∨ kind = .exportClause ∨ kind = .namespaceExport then some true
  else if kind = .token then text?.map (· == "*") else some false

theorem isExportList_of_listsExports? {n : Node} {text? : Option String} {isList : Bool}
    (h : listsExports? n.kind n.role text? = some isList) (htext : ∀ t ∈ text?, n.text = t) :
    n.isExportList = isList := by
  unfold listsExports? at h
  unfold Node.isExportList
  split at h
  next hlist =>
    cases h
    rcases hlist with h | h | h <;> simp [h]
  next hlist =>
    have hnot : ¬n.role = some .value ∧ ¬n.kind = .exportClause ∧ ¬n.kind = .namespaceExport := by
      simpa using hlist
    split at h
    next htoken =>
      obtain ⟨t, ht, rfl⟩ := Option.map_eq_some_iff.mp h
      simp [hnot, htoken, htext t ht]
    next htoken =>
      cases h
      simp [hnot, htoken]

/-- How many nodes are declarations, and how many say otherwise what is exported. -/
def exportCount : Count (Nat × Nat) :=
  declarationCount.prod <| .ofTest Node.isExportList listsExports?
    (fun n hkind hrole => by rw [Node.isExportList, hrole, hkind]; rfl)
    (fun _ _ _ => isExportList_of_listsExports?)

theorem total_exportCount (xs : List Node) : exportCount.total xs =
    (xs.countP (·.role == some .declaration), xs.countP Node.isExportList) := by
  rw [exportCount, declarationCount, Count.total_prod, Count.total_ofTest, Count.total_ofTest]

/-- The roles that what comes of a rule may be given in an export statement. -/
def exportRoles : List (Option Role) := [none, some .declaration, some .value]

/-- Whether a rule makes a single node that lists no exports by itself. -/
def isSingle : Rule → Bool
  | .declaration | .decorator | .expression | .binary _ | .unary | .chain | .primary
  | .parenthesized | .object | .template | .markup => true
  | _ => false

def exportRules (r : Rule) (role : Option Role) : Option (List (Nat × Nat)) :=
  if isSingle r ∧ role ∈ exportRoles then
    some [((role == some .declaration).toNat, (role == some .value).toNat)]
  else none

/-- Whether a form makes a single node in that sense. -/
def Form.makesSingle (f : Form Rule) : Bool :=
  exportRoles.all fun role => (f.totals? exportCount exportRules role).any fun ns =>
    ns.all (· = ((role == some .declaration).toNat, (role == some .value).toNat))

theorem makesSingle_language {r : Rule} (hr : isSingle r = true) :
    (language r).makesSingle = true := by
  cases r with
  | binary level =>
    have hforms : Forms.binaryForms.all Form.makesSingle = true := by decide +kernel
    exact forall_binary (P := (·.makesSingle = true)) (by decide) (List.all_eq_true.mp hforms) level
  | declaration | decorator | expression | unary | chain | primary | parenthesized | object
  | template | markup => decide +kernel
  | _ => cases hr

theorem rulesTotal_exportRules : RulesTotal language exportCount exportRules := by
  intro r role ms hms
  unfold exportRules at hms
  split at hms
  next hr =>
    cases hms
    have hsingle := List.all_eq_true.mp (makesSingle_language hr.1) role hr.2
    rw [Option.any_eq_true] at hsingle
    obtain ⟨ns, hns, hall⟩ := hsingle
    refine ⟨ns, hns, fun m hm => ?_⟩
    exact List.mem_singleton.mpr (of_decide_eq_true (List.all_eq_true.mp hall m hm))
  · cases hms

/-- Whether no way through the form inside of an export statement has both. -/
def isApart (kind : Kind) (inside : Option (Form Rule)) : Bool :=
  kind != .exportStatement ||
    (inside.bind (Form.totals? exportCount exportRules none)).any fun ms =>
      ms.all fun m => m.1 = 0 ∨ m.2 = 0

theorem languagePasses_isApart : languagePasses (·.builds isApart) = true := by decide +kernel

end Grammar

/-- What a node keeps to as an export statement. -/
def Node.ExportParts (n : Node) : Prop :=
  n.kind = .exportStatement → (∃ c ∈ n.children, c.role = some .declaration) →
    ∀ c ∈ n.children, c.isExportList = false

namespace Grammar

theorem exportParts_of_isApart {d : Dialect} {kind : Kind} {f : Form Rule} {xs : List Node}
    {n : Node} (htest : isApart kind (some f) = true) (hf : Yields language d f xs)
    (hn : n.Wraps kind xs) : n.ExportParts := by
  rintro hkind ⟨declaration, hdeclaration, hrole⟩ c hc
  rw [isApart, ← hn.kind, hkind, bne_self_eq_false, Bool.false_or, Option.bind_some,
    Option.any_eq_true] at htest
  obtain ⟨ms, hms, hapart⟩ := htest
  have htotal : exportCount.total xs ∈ ms := hf.total_mem rulesTotal_exportRules hms
  rw [total_exportCount] at htotal
  have hnot := of_decide_eq_true (List.all_eq_true.mp hapart _ htotal)
  -- The declaration counts, so nothing that says otherwise what is exported may count.
  rw [hn.children] at hdeclaration hc
  have hsub : ∀ m ∈ xs.dropWhile Node.isComment, m ∈ xs := (List.dropWhile_sublist _).subset
  have hdeclared : xs.countP (·.role == some .declaration) ≠ 0 := fun hnone =>
    List.countP_eq_zero.mp hnone declaration (hsub _ hdeclaration) (beq_iff_eq.mpr hrole)
  exact Bool.eq_false_iff.mpr (List.countP_eq_zero.mp (hnot.resolve_left hdeclared) c (hsub c hc))

theorem ensures_exportParts (d : Dialect) : Ensures language d isApart Node.ExportParts where
  comment := rfl
  leaf htest hn hkind := by
    rw [← hn.kind, hkind] at htest
    exact absurd htest (by decide)
  node := exportParts_of_isApart
  role _ h := h

end Grammar

theorem Program.exportParts (d : Dialect) (text : String) :
    ∀ n ∈ (Program.read d text).root.subtree, n.ExportParts := by
  refine Grammar.forall_read Grammar.ensures_exportParts rfl Grammar.languagePasses_isApart ?_
  exact fun hkind => Kind.noConfusion hkind

end CodeAtlas
