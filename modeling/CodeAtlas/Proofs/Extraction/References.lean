import CodeAtlas.Proofs.Extraction.Imports
import CodeAtlas.Usage

/-! The two walks that tell which imports are made use of: one meets the import statements of a tree
and the other one its names outside of them. What is gathered from the places below some other
places comes in source order too, if none of those is below another. -/

namespace CodeAtlas.Node

variable {root n m : Node} {name : String} {p q : List Nat} {α β : Type}

section Marks

theorem append_lt_append_iff {r r' : List Nat} (p : List Nat) : p ++ r < p ++ r' ↔ r < r' := by
  induction p with
  | nil => rfl
  | cons i p ih => simp [ih]

/-- Of two places that come one after the other, and not below it, so do all places below. -/
theorem append_lt_append {p q : List Nat} (hlt : p < q) (hapart : ¬p <+: q) (r r' : List Nat) :
    p ++ r < q ++ r' := by
  induction p generalizing q with
  | nil => exact absurd List.nil_prefix hapart
  | cons i p ih =>
    cases q with
    | nil => exact absurd hlt (List.not_lt_nil _)
    | cons j q =>
      rw [List.cons_append, List.cons_append, List.cons_lt_cons_iff]
      rcases List.cons_lt_cons_iff.mp hlt with hij | ⟨rfl, hpq⟩
      · exact .inl hij
      · refine .inr ⟨rfl, ih hpq fun hprefix => hapart ?_⟩
        exact List.cons_prefix_cons.mpr ⟨rfl, hprefix⟩

/-- The marks below some marks, none of which is below another. -/
theorem exists_marks_below {marks : List (List Nat × α)} {H : List Nat × α → List Nat → β → Prop}
    {f : List Nat × α → List β} (hsorted : marks.Pairwise fun a b => a.1 < b.1 ∧ ¬a.1 <+: b.1)
    (hbelow : ∀ a ∈ marks, ∃ below : List (List Nat × β), below.Pairwise (fun b c => b.1 < c.1) ∧
      (∀ q y, (q, y) ∈ below ↔ H a q y) ∧ below.map Prod.snd = f a) :
    ∃ all : List (List Nat × β), all.Pairwise (fun b c => b.1 < c.1) ∧
      (∀ p y, (p, y) ∈ all ↔ ∃ a ∈ marks, ∃ q, p = a.1 ++ q ∧ H a q y) ∧
      all.map Prod.snd = marks.flatMap f := by
  induction marks with
  | nil => exact ⟨[], .nil, by simp, rfl⟩
  | cons a marks ih =>
    obtain ⟨hfirst, hrest⟩ := List.pairwise_cons.mp hsorted
    rw [List.forall_mem_cons] at hbelow
    obtain ⟨below, hsorted', hmem', hsnd'⟩ := hbelow.1
    obtain ⟨all, hall, hmem, hsnd⟩ := ih hrest hbelow.2
    refine ⟨below.map (fun b => (a.1 ++ b.1, b.2)) ++ all, ?_, fun p y => ?_, ?_⟩
    · refine List.pairwise_append.mpr ⟨List.pairwise_map.mpr ?_, hall, fun b hb c hc => ?_⟩
      · exact hsorted'.imp fun hlt => (append_lt_append_iff a.1).mpr hlt
      · obtain ⟨b, -, rfl⟩ := List.mem_map.mp hb
        obtain ⟨a', ha', q, hq, -⟩ := (hmem c.1 c.2).mp hc
        rw [hq]
        exact append_lt_append (hfirst a' ha').1 (hfirst a' ha').2 _ _
    · rw [List.mem_append, List.mem_map, hmem]
      constructor
      · rintro (⟨b, hb, heq⟩ | ⟨a', ha', hq⟩)
        · obtain ⟨rfl, rfl⟩ := Prod.mk.inj heq
          exact ⟨a, List.mem_cons_self, b.1, rfl, (hmem' _ _).mp hb⟩
        · exact ⟨a', List.mem_cons_of_mem _ ha', hq⟩
      · rintro ⟨a', ha', q, rfl, hH⟩
        rcases List.mem_cons.mp ha' with rfl | ha'
        · exact .inl ⟨(q, y), (hmem' q y).mpr hH, rfl⟩
        · exact .inr ⟨a', ha', q, rfl, hH⟩
    · rw [List.map_append, List.map_map, hsnd, List.flatMap_cons, ← hsnd']
      rfl

/-- The marks of a list whose entries are told by the nodes at their places. -/
theorem Lists.exists_marks_eq {P : List Nat → Node → Prop} {g : Node → α} {xs : List α}
    (h : n.Lists P (fun m x => x = g m) xs) : ∃ marks : List (List Nat × α),
      marks.Pairwise (fun a b => a.1 < b.1) ∧
      (∀ p x, (p, x) ∈ marks ↔ ∃ m, n.at? p = some m ∧ P p m ∧ x = g m) ∧
      marks.map Prod.snd = xs := by
  obtain ⟨marks, hmarked, hxs⟩ := h
  refine ⟨marks, hmarked.sorted, fun p x => ⟨fun hx => hmarked.exists_node hx, ?_⟩, hxs⟩
  rintro ⟨m, hm, hP, rfl⟩
  obtain ⟨x, hx, rfl⟩ := hmarked.exists_mark hm hP
  exact hx

end Marks

/-- Whether a name is the text of an identifier outside of all import statements: of a value, of a
type, or of a property that is written without its value. -/
def Mentions (root : Node) (name : String) : Prop :=
  ∃ p m, root.at? p = some m ∧ root.Reached isOpen p ∧
    m.kind ∈ [.identifier, .typeIdentifier, .shorthandProperty, .shorthandBinding] ∧ m.text = name

/-- The import statements of a tree, but for those in others. -/
def importStatements (root : Node) : List Node :=
  (root.met isOpen none).filterMap fun x => if x.2.kind = .importStatement then some x.2 else none

theorem exists_mem_met_iff {enters : Node → Bool} {parent : Option Node} :
    (∃ x ∈ root.met enters parent, x.2 = m) ↔ ∃ p, root.at? p = some m ∧ root.Reached enters p := by
  have hlists : root.Lists (fun p _ => root.Reached enters p) (fun m x => x.2 = m)
      (root.met enters parent) := lists_met root parent
  obtain ⟨marks, hmarked, hmet⟩ := hlists
  rw [← hmet]
  constructor
  · rintro ⟨x, hx, rfl⟩
    obtain ⟨mark, hmark, rfl⟩ := List.mem_map.mp hx
    obtain ⟨m, hm, hreached, rfl⟩ := hmarked.exists_node hmark
    exact ⟨mark.1, hm, hreached⟩
  · rintro ⟨p, hm, hreached⟩
    obtain ⟨x, hx, hxm⟩ := hmarked.exists_mark hm hreached
    exact ⟨x, List.mem_map_of_mem hx, hxm⟩

theorem isReference_iff : n.isReference = true ↔
    n.kind ∈ [.identifier, .typeIdentifier, .shorthandProperty, .shorthandBinding] := by
  unfold isReference
  cases n.kind <;> decide

/-- What the walk for the names does with a node. -/
def gather (_ : Option Node) (n : Node) (names : List String) : Visit × List String :=
  if n.kind = .importStatement then (.skip, names)
  else (.enter, if n.isReference then n.text :: names else names)

theorem fst_gather (parent : Option Node) (n : Node) (names : List String) :
    (gather parent n names).1 = if n.isOpen then .enter else .skip := by
  unfold gather isOpen
  split <;> simp [*]

theorem snd_gather (parent : Option Node) (n : Node) (names : List String) :
    (gather parent n names).2 = if n.isReference then n.text :: names else names := by
  unfold gather
  split
  · -- An import statement is itself no reference.
    rename_i hkind
    simp [isReference, hkind]
  · rfl

theorem foldl_gather (xs : List (Option Node × Node)) (names : List String) :
    xs.foldl (fun names x => (gather x.1 x.2 names).2) names =
      ((xs.filter (·.2.isReference)).map fun x => x.2.text).reverse ++ names := by
  induction xs generalizing names with
  | nil => rfl
  | cons x xs ih =>
    rw [List.foldl_cons, ih, snd_gather, List.filter_cons]
    split <;> simp

theorem references_eq (root : Node) : root.references =
    ((root.met isOpen none).filter (·.2.isReference)).map fun x => x.2.text := by
  change (root.walk gather []).reverse = _
  rw [walk_eq_foldl fst_gather, foldl_gather, List.append_nil, List.reverse_reverse]

theorem mem_references : name ∈ root.references ↔ root.Mentions name := by
  rw [references_eq, List.mem_map]
  simp only [List.mem_filter]
  constructor
  · rintro ⟨x, ⟨hx, href⟩, rfl⟩
    obtain ⟨p, hm, hreached⟩ := exists_mem_met_iff.mp ⟨x, hx, rfl⟩
    exact ⟨p, x.2, hm, hreached, isReference_iff.mp href, rfl⟩
  · rintro ⟨p, m, hm, hreached, hkind, rfl⟩
    obtain ⟨x, hx, rfl⟩ := exists_mem_met_iff.mpr ⟨p, hm, hreached⟩
    exact ⟨x, ⟨hx, isReference_iff.mpr hkind⟩, rfl⟩

theorem lists_importStatements (root : Node) : root.Lists
    (fun p m => root.Reached isOpen p ∧ m.kind = .importStatement) (fun m n => n = m)
      root.importStatements := by
  refine (lists_met root none).filterMap _ ?_ ?_
  · rintro p m x - rfl
    simp
  · rintro m x n rfl hn
    split at hn
    · exact (Option.some.inj hn).symm
    · cases hn

end CodeAtlas.Node
