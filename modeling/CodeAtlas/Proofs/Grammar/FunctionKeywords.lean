import CodeAtlas.Proofs.Grammar.Totals

/-! The keyword of functions. A node has it among its children once or not at all, and its kind says
which: declarations, expressions and signatures of functions have one, arrow functions, methods and
all other nodes have none. Only where the source could not be read may a keyword have been left
over. So a tree has as many keywords as it has nodes of these kinds and keywords that were left
over. -/

namespace CodeAtlas

/-- Whether functions of a kind are written with the keyword. -/
def Kind.hasKeyword : Kind → Bool
  | .functionDeclaration | .generatorDeclaration | .functionExpression | .generatorExpression
  | .functionSignature => true
  | _ => false

theorem countP_cons_toNat {α : Type} (p : α → Bool) (a : α) (xs : List α) :
    (a :: xs).countP p = (p a).toNat + xs.countP p := by
  rw [List.countP_cons, Nat.add_comm]
  cases p a <;> rfl

namespace Node

/-- Whether a node is the keyword of a function. -/
def isKeyword (n : Node) : Bool := n.kind == .token && n.text == "function"

def keywords (ns : List Node) : Nat := ns.countP isKeyword

/-- How many keywords were left over where the source could not be read. -/
def strayKeywords (ns : List Node) : Nat :=
  keywords ((ns.filter (·.kind == .error)).flatMap children)

/-- What a node keeps to: it has as many keywords inside as its kind says, unless it holds what
could not be read, and a token has nothing inside. -/
structure KeywordParts (n : Node) : Prop where
  count_eq : n.kind ≠ .error → keywords n.children = n.kind.hasKeyword.toNat
  eq_nil_of_token : n.kind = .token → n.children = []

theorem isKeyword_of_ne {n : Node} (h : n.kind ≠ .token) : n.isKeyword = false := by
  rw [isKeyword, beq_false_of_ne h, Bool.false_and]

theorem keywords_append (xs ys : List Node) : keywords (xs ++ ys) = keywords xs + keywords ys :=
  List.countP_append

theorem keywords_cons (n : Node) (ns : List Node) :
    keywords (n :: ns) = n.isKeyword.toNat + keywords ns := countP_cons_toNat isKeyword n ns

theorem keywords_comments {xs : List Node} (h : ∀ n ∈ xs, n.isComment = true) :
    keywords xs = 0 := by
  refine List.countP_eq_zero.mpr fun n hn => ?_
  have hkind : n.kind = .comment := beq_iff_eq.mp (h n hn)
  rw [isKeyword_of_ne (by rw [hkind]; decide)]
  exact Bool.false_ne_true

theorem strayKeywords_cons_of_error {n : Node} (h : n.kind = .error) (ns : List Node) :
    strayKeywords (n :: ns) = keywords n.children + strayKeywords ns := by
  have hfilter : (n :: ns).filter (·.kind == .error) = n :: ns.filter (·.kind == .error) :=
    List.filter_cons_of_pos (beq_iff_eq.mpr h)
  rw [strayKeywords, hfilter, List.flatMap_cons, keywords_append, ← strayKeywords]

theorem strayKeywords_cons_of_ne {n : Node} (h : n.kind ≠ .error) (ns : List Node) :
    strayKeywords (n :: ns) = strayKeywords ns := by
  have hfilter : (n :: ns).filter (·.kind == .error) = ns.filter (·.kind == .error) :=
    List.filter_cons_of_neg fun hn => h (beq_iff_eq.mp hn)
  rw [strayKeywords, hfilter, ← strayKeywords]

theorem strayKeywords_eq_zero_iff {ns : List Node} :
    strayKeywords ns = 0 ↔ ∀ n ∈ ns, n.kind = .error → keywords n.children = 0 := by
  induction ns with
  | nil => simp [strayKeywords, keywords]
  | cons n ns ih =>
    rw [List.forall_mem_cons, ← ih]
    by_cases herror : n.kind = .error
    · rw [strayKeywords_cons_of_error herror, Nat.add_eq_zero_iff]
      simp only [herror, true_implies]
    · rw [strayKeywords_cons_of_ne herror]
      simp only [herror, false_implies, true_and]

theorem keywords_flatMap {ns : List Node} (h : ∀ n ∈ ns, n.KeywordParts) :
    keywords (ns.flatMap children) = ns.countP (·.kind.hasKeyword) + strayKeywords ns := by
  induction ns with
  | nil => rfl
  | cons n ns ih =>
    rw [List.forall_mem_cons] at h
    rw [List.flatMap_cons, keywords_append, ih h.2, countP_cons_toNat]
    by_cases herror : n.kind = .error
    · have hkeyword : n.kind.hasKeyword = false := by rw [herror]; rfl
      rw [strayKeywords_cons_of_error herror, hkeyword, Bool.toNat_false]
      omega
    · rw [strayKeywords_cons_of_ne herror, h.1.count_eq herror]
      omega

/-- A tree has as many keywords as it has nodes that are written with one, and keywords that were
left over. -/
theorem keywords_subtree {root : Node} (hroot : root.kind ≠ .token)
    (h : ∀ n ∈ root.subtree, n.KeywordParts) : keywords root.subtree =
      root.subtree.countP (·.kind.hasKeyword) + strayKeywords root.subtree := by
  rw [← keywords_flatMap h, keywords, (subtree_perm root).countP_eq, countP_cons_toNat,
    isKeyword_of_ne hroot, Bool.toNat_false, Nat.zero_add, keywords]

end Node

namespace Grammar

open Node

/-- How many nodes are keywords. Whether a token is one is told by its text. -/
def keywordCount : Count Nat :=
  .ofTest isKeyword
    (fun kind _ text? => if kind = .token then text?.map (· == "function") else some false)
    (fun n hkind _ => isKeyword_of_ne (by rw [hkind]; decide))
    (fun n text? b hb htext => by
      split at hb
      next hkind =>
        obtain ⟨t, ht, rfl⟩ := Option.map_eq_some_iff.mp hb
        rw [isKeyword, hkind, htext t ht, beq_self_eq_true, Bool.true_and]
      next hkind =>
        cases hb
        exact isKeyword_of_ne hkind)

theorem total_keywordCount (xs : List Node) : keywordCount.total xs = keywords xs :=
  Count.total_ofTest _ _ xs

/-- What comes of a rule has its keywords inside of nodes. -/
def keywordRules (_ : Rule) (_ : Option Role) : Option (List Nat) := some [0]

def allRoles : List (Option Role) :=
  none :: [.name, .body, .callee, .arguments, .object, .property, .key, .value, .source, .alias,
    .declaration].map some

theorem mem_allRoles (role : Option Role) : role ∈ allRoles := by
  cases role with
  | none => decide
  | some r => cases r <;> decide

/-- Whether a form has all its keywords inside of nodes. -/
def Form.lacksKeywords (f : Form Rule) : Bool :=
  allRoles.all fun role => (f.totals? keywordCount keywordRules role).any (·.all (· = 0))

theorem rulesTotal_keywordRules : RulesTotal language keywordCount keywordRules := by
  intro r role ms hms
  cases hms
  have hrule : (language r).lacksKeywords = true :=
    forall_language (P := Form.lacksKeywords) (by decide +kernel) r
  have hrole := List.all_eq_true.mp hrule role (mem_allRoles role)
  rw [Option.any_eq_true] at hrole
  obtain ⟨ns, hns, hall⟩ := hrole
  refine ⟨ns, hns, fun m hm => ?_⟩
  exact List.mem_singleton.mpr (of_decide_eq_true (List.all_eq_true.mp hall m hm))

/-- Whether nodes have as many keywords inside as their kinds say, on every way through the form
inside of them. -/
def keepsKeywords (kind : Kind) (inside : Option (Form Rule)) : Bool :=
  match inside with
  | none => !kind.hasKeyword
  | some f =>
    kind != .token && (f.totals? keywordCount keywordRules none).any fun ms =>
      ms.all (· = kind.hasKeyword.toNat)

theorem languagePasses_keepsKeywords : languagePasses (·.builds keepsKeywords) = true := by
  decide +kernel

theorem keywordParts_of_isLeaf {kind : Kind} {n : Node} (hn : n.IsLeaf kind)
    (hkind : kind.hasKeyword = false) : n.KeywordParts := by
  refine ⟨fun _ => ?_, fun _ => hn.children⟩
  rw [hn.children, hn.kind, hkind]
  rfl

theorem keywordParts_of_keepsKeywords {d : Dialect} {kind : Kind} {f : Form Rule} {xs : List Node}
    {n : Node} (htest : keepsKeywords kind (some f) = true) (hf : Yields language d f xs)
    (hn : n.Wraps kind xs) : n.KeywordParts := by
  rw [keepsKeywords, Bool.and_eq_true, bne_iff_ne, Option.any_eq_true] at htest
  obtain ⟨hne, ms, hms, hall⟩ := htest
  have htotal : keywordCount.total xs ∈ ms := hf.total_mem rulesTotal_keywordRules hms
  have hcount := of_decide_eq_true (List.all_eq_true.mp hall _ htotal)
  rw [total_keywordCount, ← List.takeWhile_append_dropWhile (p := Node.isComment) (l := xs),
    keywords_append, keywords_comments fun m hm => List.mem_takeWhile_imp hm,
    Nat.zero_add] at hcount
  rw [← hn.kind] at hne hcount
  refine ⟨fun _ => ?_, fun htoken => absurd htoken hne⟩
  rw [hn.children, hcount]

theorem ensures_keywordParts (d : Dialect) : Ensures language d keepsKeywords KeywordParts where
  comment := rfl
  leaf htest hn := keywordParts_of_isLeaf hn ((Bool.not_eq_true' _).mp htest)
  node := keywordParts_of_keepsKeywords
  role _ h := ⟨h.count_eq, h.eq_nil_of_token⟩

end Grammar

open Grammar Node

namespace Program

variable (d : Dialect) (text : String)

theorem keywords_children : keywords (read d text).root.children = 0 := by
  rcases children_read d text with hyield | ⟨n, hn, heq⟩
  · have htotal : keywordCount.total (asLeft none _) ∈ [0] :=
      hyield.total_mem rulesTotal_keywordRules rfl
    rw [← total_keywordCount]
    exact List.mem_singleton.mp htotal
  · rw [heq, keywords_cons, isKeyword_of_ne (by rw [hn.kind]; decide)]
    rfl

theorem keywordParts : ∀ n ∈ (read d text).root.subtree, n.KeywordParts := by
  refine forall_read ensures_keywordParts rfl languagePasses_keepsKeywords ?_
  exact ⟨fun _ => keywords_children d text, fun hkind => Kind.noConfusion hkind⟩

end Program

end CodeAtlas
