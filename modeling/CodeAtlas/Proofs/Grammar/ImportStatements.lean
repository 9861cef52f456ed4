import CodeAtlas.Proofs.Grammar.Totals

/-! The import statements of a tree. However one is written, at most one of its parts says what is
imported: a literal, which plays the role of the source, or a clause that holds the literal. -/

namespace CodeAtlas

namespace Node

/-- Whether a part of an import statement says what is imported. -/
def isImported (n : Node) : Bool := n.kind == .string || n.kind == .importRequireClause

/-- Whether a node is a literal that is no source, or a source that is no literal. -/
def isMisplaced (n : Node) : Bool := (n.kind == .string) != (n.role == some .source)

theorem not_isMisplaced_iff {n : Node} :
    ¬n.isMisplaced = true ↔ (n.kind = .string ↔ n.role = some .source) := by
  rw [isMisplaced, bne_iff_ne, not_not, Bool.eq_iff_iff, beq_iff_eq, beq_iff_eq]

/-- Whether at most one child says what is imported, and the literals are those with the role of
the source. -/
structure NamesOneSource (n : Node) : Prop where
  count_le : n.children.countP isImported ≤ 1
  source_iff : ∀ c ∈ n.children, c.kind = .string ↔ c.role = some .source

/-- What a node keeps to as an import statement. -/
def ImportParts (n : Node) : Prop := n.kind = .importStatement → n.NamesOneSource

end Node

namespace Grammar

/-- How many nodes say what is imported, and how many are misplaced. -/
def importCount : Count (Nat × Nat) :=
  .prod
    (.ofTest Node.isImported
      (fun kind _ _ => some (kind == .string || kind == .importRequireClause))
      (fun n hkind _ => by rw [Node.isImported, hkind]; rfl) (fun n _ b hb _ => Option.some.inj hb))
    (.ofTest Node.isMisplaced
      (fun kind role _ => some ((kind == .string) != (role == some .source)))
      (fun n hkind hrole => by rw [Node.isMisplaced, hkind, hrole]; rfl)
      (fun n _ b hb _ => Option.some.inj hb))

theorem total_importCount (xs : List Node) :
    importCount.total xs = (xs.countP Node.isImported, xs.countP Node.isMisplaced) := by
  rw [importCount, Count.total_prod, Count.total_ofTest, Count.total_ofTest]

/-- Import statements are written without rules, but for what is inside of their parts. -/
def importRules (_ : Rule) (_ : Option Role) : Option (List (Nat × Nat)) := none

theorem rulesTotal_importRules : RulesTotal language importCount importRules :=
  fun _ _ _ h => absurd h (Option.some_ne_none _).symm

/-- Whether every way through the form inside of an import statement names at most one source. -/
def namesOneSource (kind : Kind) (inside : Option (Form Rule)) : Bool :=
  kind != .importStatement ||
    (inside.bind (Form.totals? importCount importRules none)).any fun ms =>
      ms.all fun m => m.1 ≤ 1 ∧ m.2 = 0

theorem languagePasses_namesOneSource : languagePasses (·.builds namesOneSource) = true := by
  decide +kernel

theorem importParts_of_namesOneSource {d : Dialect} {kind : Kind} {f : Form Rule} {xs : List Node}
    {n : Node} (htest : namesOneSource kind (some f) = true) (hf : Yields language d f xs)
    (hn : n.Wraps kind xs) : n.ImportParts := by
  intro hkind
  rw [namesOneSource, ← hn.kind, hkind, bne_self_eq_false, Bool.false_or, Option.bind_some,
    Option.any_eq_true] at htest
  obtain ⟨ms, hms, hall⟩ := htest
  have htotal : importCount.total xs ∈ ms := hf.total_mem rulesTotal_importRules hms
  rw [total_importCount] at htotal
  have hcounts := of_decide_eq_true (List.all_eq_true.mp hall _ htotal)
  have hsub : (xs.dropWhile Node.isComment).Sublist xs := List.dropWhile_sublist _
  constructor
  · rw [hn.children]
    exact hsub.countP_le.trans hcounts.1
  · intro c hc
    rw [hn.children] at hc
    exact Node.not_isMisplaced_iff.mp (List.countP_eq_zero.mp hcounts.2 c (hsub.subset hc))

theorem ensures_importParts (d : Dialect) :
    Ensures language d namesOneSource Node.ImportParts where
  comment := rfl
  leaf htest hn hkind := by
    rw [← hn.kind, hkind] at htest
    exact absurd htest (by decide)
  node := importParts_of_namesOneSource
  role _ h hkind := ⟨(h hkind).count_le, (h hkind).source_iff⟩

end Grammar

theorem Program.importParts (d : Dialect) (text : String) :
    ∀ n ∈ (Program.read d text).root.subtree, n.ImportParts := by
  refine Grammar.forall_read Grammar.ensures_importParts rfl
    Grammar.languagePasses_namesOneSource ?_
  exact fun hkind => Kind.noConfusion hkind

end CodeAtlas
