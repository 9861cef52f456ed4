import CodeAtlas.Program
import CodeAtlas.Proofs.Grammar.Subtrees
import CodeAtlas.Proofs.Responsibility.DataClients

/-! What a call sees of its callee. A callee that goes from a name through members, calls and mere
wrappings is told by that name, by its properties from left to right, and by the last of them if
the callee ends in it. -/

namespace CodeAtlas

/-- What may stand around a value without making another one of it. -/
inductive Wrapping where
  | await
  | parentheses
  | nonNull
  deriving DecidableEq, Repr

def Wrapping.kind : Wrapping → Kind
  | await => .awaitExpression
  | parentheses => .parenthesizedExpression
  | nonNull => .nonNullExpression

/-- A value that is reached from a name or from `this`. -/
inductive Operand where
  | name (text : String)
  | self
  | member (object : Operand) (property : String)
  | call (callee : Operand)
  | wrapped (w : Wrapping) (value : Operand)
  deriving DecidableEq, Repr

namespace Operand

/-- Where it starts. -/
def root : Operand → String
  | name text => text
  | self => "this"
  | member e _ | call e | wrapped _ e => e.root

/-- The properties on the way, from left to right. -/
def properties : Operand → List String
  | name _ | self => []
  | member e property => e.properties ++ [property]
  | call e | wrapped _ e => e.properties

/-- Whether a node is the tree of a value, with no comments between its parts. What stands behind
the callee of a call is left open. -/
def reads : Operand → Node → Bool
  | name text, n => n.kind == .identifier && n.text == text
  | self, n => n.kind == .thisValue && n.text == "this"
  | member e text, n => n.kind == .memberExpression &&
    match n.children with
    | [object, sign, property] => object.role == some .object && e.reads object &&
      sign.role == none && property.role == some .property && property.text == text
    | _ => false
  | call e, n => n.kind == .callExpression &&
    match n.children with
    | callee :: _ => callee.role == some .callee && e.reads callee
    | [] => false
  | wrapped w e, n => n.kind == w.kind &&
    match n.namedChildren with
    | [value] => e.reads value
    | _ => false

end Operand

namespace Node

theorem chainOfRole_eq (r : Role) (ns : List Node) :
    chainOfRole r ns = ((ns.find? (·.role == some r)).map chain).getD ⟨none, []⟩ := by
  induction ns with
  | nil => rfl
  | cons n ns ih =>
    rw [chainOfRole, List.find?_cons, ih]
    cases n.role == some r <;> rfl

theorem chainOfNamed_eq (ns : List Node) :
    chainOfNamed ns = ((ns.find? isNamed).map chain).getD ⟨none, []⟩ := by
  induction ns with
  | nil => rfl
  | cons n ns ih =>
    rw [chainOfNamed, List.find?_cons, ih]
    cases n.isNamed <;> rfl

variable {n value object property callee : Node}

theorem chain_name (hkind : n.kind = .identifier ∨ n.kind = .thisValue) :
    n.chain = ⟨some n.text, []⟩ := by
  obtain ⟨kind, role, text, row, column, children⟩ := n
  rcases hkind with rfl | rfl <;> rfl

theorem chain_member (hkind : n.kind = .memberExpression) (hobject : n.child? .object = some object)
    (hproperty : n.child? .property = some property) :
    n.chain = ⟨object.chain.root, object.chain.names ++ [property.text]⟩ := by
  obtain ⟨kind, role, text, row, column, children⟩ := n
  obtain rfl : kind = .memberExpression := hkind
  unfold child? at hobject hproperty
  rw [chain, hproperty, chainOfRole_eq, hobject]
  rfl

theorem chain_call (hkind : n.kind = .callExpression) (hcallee : n.child? .callee = some callee) :
    n.chain = callee.chain := by
  obtain ⟨kind, role, text, row, column, children⟩ := n
  obtain rfl : kind = .callExpression := hkind
  unfold child? at hcallee
  rw [chain, chainOfRole_eq, hcallee]
  rfl

theorem chain_wrapped (w : Wrapping) (hkind : n.kind = w.kind) :
    n.chain = (n.namedChildren.head?.map chain).getD ⟨none, []⟩ := by
  obtain ⟨kind, role, text, row, column, children⟩ := n
  obtain rfl : kind = w.kind := hkind
  rw [namedChildren, List.head?_filter, ← chainOfNamed_eq]
  cases w <;> rfl

end Node

namespace Operand

variable {e : Operand} {n : Node}

theorem exists_of_reads_member {text : String} (h : (member e text).reads n = true) :
    n.kind = .memberExpression ∧ ∃ object property, n.child? .object = some object ∧
      e.reads object = true ∧ n.child? .property = some property ∧ property.text = text := by
  rw [reads, Bool.and_eq_true, beq_iff_eq] at h
  obtain ⟨hkind, hparts⟩ := h
  split at hparts
  next object sign property hchildren =>
    simp only [Bool.and_eq_true, beq_iff_eq] at hparts
    obtain ⟨⟨⟨⟨hobject, he⟩, hsign⟩, hproperty⟩, htext⟩ := hparts
    refine ⟨hkind, object, property, ?_, he, ?_, htext⟩
    · simp [Node.child?, hchildren, hobject]
    · simp [Node.child?, hchildren, hobject, hsign, hproperty]
  · cases hparts

theorem exists_of_reads_call (h : (call e).reads n = true) :
    n.kind = .callExpression ∧
      ∃ callee, n.child? .callee = some callee ∧ e.reads callee = true := by
  rw [reads, Bool.and_eq_true, beq_iff_eq] at h
  obtain ⟨hkind, hparts⟩ := h
  split at hparts
  next callee more hchildren =>
    rw [Bool.and_eq_true, beq_iff_eq] at hparts
    exact ⟨hkind, callee, by simp [Node.child?, hchildren, hparts.1], hparts.2⟩
  · cases hparts

theorem exists_of_reads_wrapped {w : Wrapping} (h : (wrapped w e).reads n = true) :
    n.kind = w.kind ∧ ∃ value, n.namedChildren.head? = some value ∧ e.reads value = true := by
  rw [reads, Bool.and_eq_true, beq_iff_eq] at h
  obtain ⟨hkind, hparts⟩ := h
  split at hparts
  next value hvalue => exact ⟨hkind, value, by rw [hvalue, List.head?_singleton], hparts⟩
  · cases hparts

/-- The chain of a value is where it starts and the properties on the way. -/
theorem chain_of_reads (h : e.reads n = true) : n.chain = ⟨some e.root, e.properties⟩ := by
  induction e generalizing n with
  | name text =>
    rw [reads, Bool.and_eq_true, beq_iff_eq, beq_iff_eq] at h
    rw [Node.chain_name (.inl h.1), h.2, root, properties]
  | self =>
    rw [reads, Bool.and_eq_true, beq_iff_eq, beq_iff_eq] at h
    rw [Node.chain_name (.inr h.1), h.2, root, properties]
  | member e text ih =>
    obtain ⟨hkind, object, property, hobject, he, hproperty, rfl⟩ := exists_of_reads_member h
    rw [Node.chain_member hkind hobject hproperty, ih he, root, properties]
  | call e ih =>
    obtain ⟨hkind, callee, hcallee, he⟩ := exists_of_reads_call h
    rw [Node.chain_call hkind hcallee, ih he, root, properties]
  | wrapped w e ih =>
    obtain ⟨hkind, value, hvalue, he⟩ := exists_of_reads_wrapped h
    rw [Node.chain_wrapped w hkind, hvalue, Option.map_some, Option.getD_some, ih he, root,
      properties]

theorem method_of_reads_member {text : String} (h : (member e text).reads n = true) :
    n.asCallee.method = some text := by
  obtain ⟨hkind, object, property, -, -, hproperty, rfl⟩ := exists_of_reads_member h
  unfold Node.asCallee Node.textOf?
  rw [if_pos hkind, hproperty]
  rfl

theorem method_of_reads (h : e.reads n = true)
    (hmember : ∀ object property, e ≠ member object property) : n.asCallee.method = none := by
  have hkind : n.kind ≠ .memberExpression := by
    intro hkind
    cases e with
    | member object property => exact hmember object property rfl
    | wrapped w e =>
      have hw := (exists_of_reads_wrapped h).1
      rw [hkind] at hw
      cases w <;> cases hw
    | name | self | call =>
      rw [reads, hkind] at h
      exact absurd h Bool.noConfusion
  unfold Node.asCallee
  rw [if_neg hkind]

/-- A call of a value has the start of the value and the properties on the way. Its method is the
last of these if the value ends in it, and there is none otherwise. -/
theorem shape_of_reads_call (h : (call e).reads n = true) :
    ∃ c : Call, Shape.of? n = some (.call c) ∧ c.root = some e.root ∧ c.chain = e.properties ∧
      (∀ object property, e = member object property →
        c.method = some property ∧ e.properties = object.properties ++ [property]) ∧
      ((∀ object property, e ≠ member object property) → c.method = none) := by
  obtain ⟨hkind, callee, hcallee, he⟩ := exists_of_reads_call h
  have hshape : Shape.of? n = some (.call callee.asCallee) :=
    Shape.of?_eq_call_iff.mpr ⟨hkind, callee, hcallee, rfl⟩
  have hchain := chain_of_reads he
  refine ⟨callee.asCallee, hshape, congrArg Chain.root hchain, congrArg Chain.names hchain, ?_,
    method_of_reads he⟩
  rintro object property rfl
  exact ⟨method_of_reads_member he, rfl⟩

theorem shape_of_reads_call_wrapped :
    let e := member (wrapped .parentheses (wrapped .await
      (call (wrapped .nonNull (member self "load"))))) "then"
    ∃ n ∈ (Program.read .typeScript "(await this.load!(x)).then(y);").root.subtree,
      (call e).reads n = true ∧
      ∃ c : Call, Shape.of? n = some (.call c) ∧ c.root = some "this" ∧
        c.chain = ["load", "then"] ∧ c.method = some "then" := by
  intro e
  have hread : ∃ n ∈ (Program.read .typeScript "(await this.load!(x)).then(y);").root.subtree,
      (call e).reads n = true := by decide +kernel
  obtain ⟨n, hn, hreads⟩ := hread
  obtain ⟨c, hshape, hroot, hchain, hmethod, -⟩ := shape_of_reads_call hreads
  exact ⟨n, hn, hreads, c, hshape, hroot, hchain, (hmethod _ _ rfl).1⟩

end Operand

end CodeAtlas
