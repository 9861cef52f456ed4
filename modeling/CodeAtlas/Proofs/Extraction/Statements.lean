import CodeAtlas.Extraction

/-! Trees without where they stand. What a statement imports does not depend on its place in the
source, but for the line that is told with it. -/

namespace CodeAtlas.Node

mutual

/-- A tree as it would be anywhere else. -/
def unplaced : Node → Node
  | ⟨kind, role, text, _, _, children⟩ => ⟨kind, role, text, 0, 0, unplacedAll children⟩

def unplacedAll : List Node → List Node
  | [] => []
  | n :: ns => n.unplaced :: unplacedAll ns

end

mutual

def decEq : (n m : Node) → Decidable (n = m)
  | ⟨kind, role, text, row, column, children⟩, ⟨kind', role', text', row', column', children'⟩ =>
    letI := decEqAll children children'
    decidable_of_iff (kind = kind' ∧ role = role' ∧ text = text' ∧ row = row' ∧
      column = column' ∧ children = children') (by rw [mk.injEq])

def decEqAll : (ns ms : List Node) → Decidable (ns = ms)
  | [], [] => isTrue rfl
  | [], _ :: _ => isFalse (List.cons_ne_nil _ _).symm
  | _ :: _, [] => isFalse (List.cons_ne_nil _ _)
  | n :: ns, m :: ms =>
    letI := decEq n m
    letI := decEqAll ns ms
    decidable_of_iff (n = m ∧ ns = ms) (by rw [List.cons.injEq])

end

instance : DecidableEq Node := decEq

theorem unplacedAll_eq (ns : List Node) : unplacedAll ns = ns.map unplaced := by
  induction ns with
  | nil => rfl
  | cons n ns ih => rw [unplacedAll, ih, List.map_cons]

@[simp] theorem kind_unplaced (n : Node) : n.unplaced.kind = n.kind := by
  cases n
  rfl

@[simp] theorem role_unplaced (n : Node) : n.unplaced.role = n.role := by
  cases n
  rfl

@[simp] theorem text_unplaced (n : Node) : n.unplaced.text = n.text := by
  cases n
  rfl

@[simp] theorem children_unplaced (n : Node) : n.unplaced.children = n.children.map unplaced := by
  cases n
  exact unplacedAll_eq _

theorem ofKind_unplaced (kind : Kind) (ns : List Node) :
    ofKind kind (ns.map unplaced) = (ofKind kind ns).map unplaced := by
  rw [ofKind, ofKind, List.filter_map]
  simp [Function.comp_def]

theorem textOf?_unplaced (n : Node) (r : Role) : n.unplaced.textOf? r = n.textOf? r := by
  rw [textOf?, textOf?, child?, child?, children_unplaced, List.find?_map, Option.map_map]
  simp [Function.comp_def]

theorem clauseBindings_unplaced (n : Node) : n.unplaced.clauseBindings = n.clauseBindings := by
  unfold clauseBindings
  rw [kind_unplaced, text_unplaced, children_unplaced, ofKind_unplaced, List.find?_map,
    List.filterMap_map]
  simp [Function.comp_def, textOf?_unplaced]

theorem importBindings_unplaced (n : Node) : n.unplaced.importBindings = n.importBindings := by
  unfold importBindings
  rw [kind_unplaced, children_unplaced, ofKind_unplaced, List.flatMap_map, List.map_map]
  simp [Function.comp_def, clauseBindings_unplaced]

theorem importSources_unplaced (n : Node) :
    n.unplaced.importSources = n.importSources.map unplaced := by
  unfold importSources
  rw [kind_unplaced, children_unplaced, ofKind_unplaced]
  split <;> simp

/-- An import as it is if its statement stands in the first line of another file. -/
def firstIn (file : String) (i : Import) : Import :=
  { i with file := file, line := 1 }

/-- What a statement imports is the same anywhere but for the file and the line. -/
theorem statementImport?_unplaced (file file' : String) (n : Node) :
    n.unplaced.statementImport? file' =
      (n.statementImport? file).map (firstIn file') := by
  have hline : n.unplaced.line = 1 := by
    cases n
    rfl
  unfold statementImport?
  rw [children_unplaced, List.flatMap_map, List.any_map, List.flatMap_map]
  simp only [importSources_unplaced, importBindings_unplaced, hline]
  rw [← List.map_flatMap, List.getLast?_map]
  cases (n.children.flatMap importSources).getLast? with
  | none => rfl
  | some source =>
    by_cases hempty : unquote source.text = ""
    · simp [hempty]
    · simp [hempty, Function.comp_def, firstIn]

end CodeAtlas.Node
