import CodeAtlas.Program
import CodeAtlas.Proofs.Grammar.Subtrees
import CodeAtlas.Proofs.Grammar.Yields

/-! A fact about all nodes of a tree, from what it says about the forms that build nodes. -/

namespace CodeAtlas.Grammar

variable {R : Type} {g : Rules R} {d : Dialect}

/-- What is inside of the node that a step makes of what was read before it. -/
def Step.inside (whole : Form R) : Step R → Form R
  | .mk _ (some r) f => .seq [.role r whole, f]
  | .mk _ none f => .seq [whole, f]

mutual

/-- Whether all nodes that a form builds pass a test. The test sees the form inside of a node, and
none for a token. -/
def Form.builds (test : Kind → Option (Form R) → Bool) : Form R → Bool
  | .token _ kind | .raw _ kind | .word _ kind => test kind none
  | .sign _ _ => test .token none
  | .node kind f => test kind (some f) && f.builds test
  | .many f | .only _ f | .role _ f => f.builds test
  | .seq fs | .oneOf fs => buildAll test fs
  | .grow f steps => f.builds test && stepsBuild test (.grow f steps) steps
  | .sameLine | .newLine | .atEnd | .rule _ | .ahead _ | .notAhead _ => true

def buildAll (test : Kind → Option (Form R) → Bool) : List (Form R) → Bool
  | [] => true
  | f :: fs => f.builds test && buildAll test fs

def stepsBuild (test : Kind → Option (Form R) → Bool) (whole : Form R) : List (Step R) → Bool
  | [] => true
  | .mk kind left f :: steps =>
    test kind (some ((Step.mk kind left f).inside whole)) && f.builds test &&
      stepsBuild test whole steps

end

variable {test : Kind → Option (Form R) → Bool}

theorem buildAll_iff {fs : List (Form R)} :
    buildAll test fs = true ↔ ∀ f ∈ fs, f.builds test = true := by
  induction fs with
  | nil => simp [buildAll]
  | cons f fs ih => simp [buildAll, ih]

theorem builds_of_mem {whole : Form R} {kind : Kind} {left : Option Role} {f : Form R}
    {steps : List (Step R)} (h : stepsBuild test whole steps = true)
    (hmem : .mk kind left f ∈ steps) :
    test kind (some ((Step.mk kind left f).inside whole)) = true ∧ f.builds test = true := by
  induction steps with
  | nil => exact absurd hmem List.not_mem_nil
  | cons step steps ih =>
    obtain ⟨kind', left', f'⟩ := step
    rw [stepsBuild, Bool.and_eq_true, Bool.and_eq_true] at h
    rcases List.mem_cons.mp hmem with heq | hmem
    · cases heq
      exact h.1
    · exact ih h.2 hmem

theorem Yields.inside {whole f : Form R} {xs ys : List Node} (kind : Kind) (left : Option Role)
    (hxs : Yields g d whole xs) (hys : Yields g d f ys) :
    Yields g d ((Step.mk kind left f).inside whole) (asLeft left xs ++ ys) := by
  have hlast : Yields g d (.seq [f]) ys := by
    rw [← List.append_nil ys]
    exact .seqCons hys .seqNil
  cases left with
  | none => exact .seqCons hxs hlast
  | some r => exact .seqCons (.role hxs) hlast

/-- Whether a property holds of all nodes of some trees. -/
def Everywhere (P : Node → Prop) (xs : List Node) : Prop := ∀ m ∈ Node.subtreeAll xs, P m

variable {P : Node → Prop}

theorem everywhere_nil : Everywhere P [] := fun _ hm => absurd hm List.not_mem_nil

theorem everywhere_append {xs ys : List Node} :
    Everywhere P (xs ++ ys) ↔ Everywhere P xs ∧ Everywhere P ys := by
  unfold Everywhere
  simp only [Node.mem_subtreeAll, List.mem_append]
  grind

theorem everywhere_singleton {n : Node} : Everywhere P [n] ↔ P n ∧ Everywhere P n.children := by
  unfold Everywhere
  rw [Node.subtreeAll, Node.subtreeAll, List.append_nil, Node.subtree_eq, List.forall_mem_cons]

theorem Everywhere.sublist {xs ys : List Node} (h : Everywhere P ys) (hsub : xs.Sublist ys) :
    Everywhere P xs := by
  intro m hm
  obtain ⟨n, hn, hmn⟩ := Node.mem_subtreeAll.mp hm
  exact h m (Node.mem_subtreeAll.mpr ⟨n, hsub.subset hn, hmn⟩)

/-- What a test of the forms inside of nodes ensures of the nodes. -/
structure Ensures (g : Rules R) (d : Dialect) (test : Kind → Option (Form R) → Bool)
    (P : Node → Prop) : Prop where
  comment : test .comment none = true
  leaf {kind : Kind} {n : Node} (h : test kind none = true) (hn : n.IsLeaf kind) : P n
  node {kind : Kind} {f : Form R} {xs : List Node} {n : Node} (h : test kind (some f) = true)
    (hf : Yields g d f xs) (hn : n.Wraps kind xs) : P n
  /-- The role that a node is given later does not matter. -/
  role {n : Node} (r : Role) (h : P n) : P (n.withRole r)

section Ensures

variable (he : Ensures g d test P)

include he

theorem Ensures.token {kind : Kind} {n : Node} (h : test kind none = true) (hn : n.IsLeaf kind) :
    Everywhere P [n] := by
  rw [everywhere_singleton, hn.children]
  exact ⟨he.leaf h hn, everywhere_nil⟩

theorem Ensures.comments {comments : List Node} (h : ∀ n ∈ comments, n.IsLeaf .comment) :
    Everywhere P comments := by
  induction comments with
  | nil => exact everywhere_nil
  | cons n comments ih =>
    rw [List.forall_mem_cons] at h
    exact everywhere_append.mpr ⟨he.token he.comment h.1, ih h.2⟩

theorem Ensures.giveRole {xs : List Node} (r : Role) (h : Everywhere P xs) :
    Everywhere P (giveRole r xs) := by
  intro m hm
  obtain ⟨n', hn', hmn⟩ := Node.mem_subtreeAll.mp hm
  obtain ⟨n, hn, rfl⟩ := List.mem_map.mp hn'
  have hself : Everywhere P [n] := h.sublist (List.singleton_sublist.mpr hn)
  have hbuilt : Everywhere P [if n.isComment then n else n.withRole r] := by
    rw [everywhere_singleton] at hself ⊢
    split
    · exact hself
    · exact ⟨he.role r hself.1, hself.2⟩
  exact hbuilt m (Node.mem_subtreeAll.mpr ⟨_, List.mem_singleton_self _, hmn⟩)

theorem Ensures.asLeft {xs : List Node} (left : Option Role) (h : Everywhere P xs) :
    Everywhere P (asLeft left xs) := by
  cases left with
  | none => exact h
  | some r => exact he.giveRole r h

theorem Ensures.wraps {kind : Kind} {f : Form R} {xs : List Node} {n : Node}
    (hkind : test kind (some f) = true) (hf : Yields g d f xs) (hxs : Everywhere P xs)
    (hn : n.Wraps kind xs) : Everywhere P (xs.takeWhile Node.isComment ++ [n]) := by
  rw [everywhere_append, everywhere_singleton, hn.children]
  exact ⟨hxs.sublist (List.takeWhile_sublist _), he.node hkind hf hn,
    hxs.sublist (List.dropWhile_sublist _)⟩

/-- What holds of each node that a form builds holds of all nodes that come of the form. -/
theorem Yields.everywhere (hrules : ∀ r, (g r).builds test = true) {form : Form R}
    {xs : List Node} (h : Yields g d form xs) (hform : form.builds test = true) :
    Everywhere P xs := by
  induction h with
  | token hc hl | word hc hl | sign hc hl =>
    rw [Form.builds] at hform
    exact everywhere_append.mpr ⟨he.comments hc, he.token hform hl⟩
  | raw hl =>
    rw [Form.builds] at hform
    exact he.token hform hl
  | sameLine | newLine | seqNil | manyNil | ahead | notAhead => exact everywhere_nil
  | atEnd hc => exact he.comments hc
  | rule _ ih => exact ih (hrules _)
  | seqCons _ _ ihf ihfs =>
    -- What is left of a sequence is one itself, and the test goes on to it.
    rw [Form.builds, buildAll, Bool.and_eq_true] at hform
    rw [everywhere_append]
    refine ⟨ihf hform.1, ihfs ?_⟩
    rw [Form.builds]
    exact hform.2
  | oneOf hmem _ ih =>
    rw [Form.builds] at hform
    exact ih (buildAll_iff.mp hform _ hmem)
  | manyCons _ _ ihf ihmore =>
    rw [everywhere_append]
    refine ⟨ihf ?_, ihmore hform⟩
    rwa [Form.builds] at hform
  | only _ _ ih =>
    rw [Form.builds] at hform
    exact ih hform
  | node hf hn ih =>
    rw [Form.builds, Bool.and_eq_true] at hform
    exact he.wraps hform.1 hf (ih hform.2) hn
  | role _ ih =>
    rw [Form.builds] at hform
    exact he.giveRole _ (ih hform)
  | first _ ih =>
    rw [Form.builds, Bool.and_eq_true] at hform
    exact ih hform.1
  | @step f steps kind left f' xs ys n hxs hmem hys hn ihxs ihys =>
    -- What has grown so far came of the whole form, so `hform` is needed again for it.
    have hbuilt := hform
    rw [Form.builds, Bool.and_eq_true] at hbuilt
    obtain ⟨hkind, hf'⟩ := builds_of_mem hbuilt.2 hmem
    have hread := everywhere_append.mpr ⟨he.asLeft left (ihxs hform), ihys hf'⟩
    exact he.wraps hkind (.inside kind left hxs hys) hread hn

end Ensures

/-- There are only so many levels of operators. -/
theorem forall_binary {P : Form Rule → Prop} (hunary : P (.rule .unary))
    (hforms : ∀ f ∈ Forms.binaryForms, P f) (level : Nat) : P (language (.binary level)) := by
  change P (Forms.binaryForms.getD level (.rule .unary))
  rw [List.getD_eq_getElem?_getD]
  cases hlevel : Forms.binaryForms[level]? with
  | none => exact hunary
  | some f => exact hforms f (List.mem_of_getElem? hlevel)

/-- All rules but the levels of operators. -/
def plainRules : List Rule :=
  [.program, .statement, .block, .declaration, .expression, .expressions, .unary, .chain,
    .constructorCallee, .primary, .arguments, .template, .object, .parenthesized, .markup, .binding,
    .target, .propertyName, .parameters, .callSignature, .decorator, .classRest, .type, .memberType,
    .operatorType, .typeName, .ascription, .typeArguments, .typeParameters, .objectType]

theorem mem_plainRules_or (r : Rule) : r ∈ plainRules ∨ ∃ level, r = .binary level := by
  cases r with
  | binary level => exact .inr ⟨level, rfl⟩
  | _ => exact .inl (by decide)

/-- Whether the forms of all rules pass a test. -/
def languagePasses (P : Form Rule → Bool) : Bool :=
  P (.rule .unary) && Forms.binaryForms.all P && plainRules.all fun r => P (language r)

theorem forall_language {P : Form Rule → Bool} (h : languagePasses P = true) (r : Rule) :
    P (language r) = true := by
  rw [languagePasses, Bool.and_eq_true, Bool.and_eq_true, List.all_eq_true, List.all_eq_true] at h
  obtain ⟨⟨hunary, hforms⟩, hplain⟩ := h
  rcases mem_plainRules_or r with hr | ⟨level, rfl⟩
  · exact hplain r hr
  · exact forall_binary (P := (P · = true)) hunary hforms level

/-- The nodes of a text are those of a program, or one that says that it cannot be read. -/
theorem children_read (d : Dialect) (text : String) :
    Yields language d (.rule .program) (Program.read d text).root.children ∨
      ∃ n : Node, n.IsLeaf .error ∧ (Program.read d text).root.children = [n] := by
  change Yields language d (.rule .program) ((Program.statements d text).getD _) ∨
    ∃ n : Node, n.IsLeaf .error ∧ (Program.statements d text).getD _ = [n]
  cases hread : Program.statements d text with
  | none => exact .inr ⟨_, ⟨rfl, rfl, rfl⟩, rfl⟩
  | some xs =>
    obtain ⟨⟨ys, c⟩, hys, rfl⟩ := Option.map_eq_some_iff.mp hread
    exact .inl (read_yields (gapped_ofPlace _) hys)

/-- What a test ensures holds of all nodes of a program, if it holds of the root. -/
theorem forall_read {test : Kind → Option (Form Rule) → Bool} {P : Node → Prop}
    (he : ∀ d, Ensures language d test P) (herror : test .error none = true)
    (hlanguage : languagePasses (·.builds test) = true) {d : Dialect} {text : String}
    (hroot : P (Program.read d text).root) : ∀ n ∈ (Program.read d text).root.subtree, P n := by
  have hrules := forall_language hlanguage
  have hchildren : Everywhere P (Program.read d text).root.children := by
    rcases children_read d text with hyield | ⟨n, hn, heq⟩
    · exact hyield.everywhere (he d) hrules rfl
    · rw [heq]
      exact (he d).token herror hn
  intro n hn
  rw [Node.subtree_eq, List.mem_cons] at hn
  rcases hn with rfl | hn
  · exact hroot
  · exact hchildren n hn

end CodeAtlas.Grammar
