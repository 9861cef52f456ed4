import CodeAtlas.Extraction
import CodeAtlas.Program
import CodeAtlas.Proofs.Grammar.Walks

/-! The imports of a tree, one for each node that imports a module outside of all import statements
around it, in source order; and the names that an import statement binds, one for each part of its
clause that is a name to the file. -/

namespace CodeAtlas

namespace Node

/-- The import that a node is by itself. -/
def import? (file : String) (parent : Option Node) (n : Node) : Option Import :=
  match n.kind with
  | .importStatement => n.statementImport? file
  | .callExpression => n.callImport? file parent
  | _ => none

/-- The exports of a node by itself. -/
def exported (n : Node) : List Export :=
  match n.kind with
  | .exportStatement => n.statementExports
  | _ => []

/-- Whether imports and exports are looked for below a node. -/
def isOpen (n : Node) : Bool := n.kind != .importStatement

/-- The literal that names the module which a node imports. -/
def moduleLiteral? (n : Node) : Option Node :=
  match n.kind with
  | .importStatement => (n.children.flatMap importSources).getLast?
  | .callExpression => (n.child? .arguments).bind fun a => a.children.find? (·.kind == .string)
  | _ => none

/-- Whether a node is a call of `require` or `import`. -/
def CallsLoader (n : Node) : Prop :=
  ∃ callee, n.child? .callee = some callee ∧
    (callee.kind = .identifier ∧ callee.text = "require" ∨ callee.kind = .importCallee)

/-- Whether a node imports a module: a statement that names one, or a call with a literal among its
arguments. -/
def ImportsModule (n : Node) : Prop :=
  ∃ s, n.moduleLiteral? = some s ∧
    (n.kind = .importStatement ∧ unquote s.text ≠ "" ∨ n.kind = .callExpression ∧ n.CallsLoader)

/-- Whether a child is the first one that passes a test. -/
def IsFirst (n : Node) (test : Node → Bool) (i : Nat) (m : Node) : Prop :=
  n.children[i]? = some m ∧ test m = true ∧ ∀ c ∈ n.children.take i, test c = false

/-- Whether a child of an entry of an import list is the name for the file: the alias, if there is
one. -/
def IsLocalName (n : Node) (i : Nat) (m : Node) : Prop :=
  (n.child? .name).isSome = true ∧
    n.IsFirst (·.role == some (if (n.child? .alias).isSome then .alias else .name)) i m

/-- Whether the node at a place in a part of an import clause is a name that the part binds. -/
inductive PartBinds (n : Node) : List Nat → Node → Prop
  | default (hkind : n.kind = .identifier) : PartBinds n [] n
  | allOf {i : Nat} {m : Node} (hkind : n.kind = .namespaceImport)
      (hm : n.IsFirst (·.kind == .identifier) i m) : PartBinds n [i] m
  | named {i j : Nat} {entry m : Node} (hkind : n.kind = .namedImports)
      (hentry : n.children[i]? = some entry) (hspecifier : entry.kind = .importSpecifier)
      (hm : entry.IsLocalName j m) : PartBinds n [i, j] m

/-- Whether the node at a place in an import statement is a name that its clause binds. -/
def ClauseBinds (n : Node) (p : List Nat) (m : Node) : Prop :=
  ∃ i j q clause part, p = i :: j :: q ∧ n.children[i]? = some clause ∧
    clause.kind = .importClause ∧ clause.children[j]? = some part ∧ part.PartBinds q m

/-- Whether an import is what a node says. -/
structure Says (file : String) (n : Node) (i : Import) : Prop where
  file : i.file = file
  line : i.line = n.row + 1
  specifier : ∃ s, n.moduleLiteral? = some s ∧ i.specifier = unquote s.text
  static : i.kind = .static ↔
    n.kind = .importStatement ∧ ∀ c ∈ n.children, c.kind ≠ .importRequireClause
  dynamic : i.kind = .dynamic ↔ n.kind = .callExpression ∧
    ∃ callee, n.child? .callee = some callee ∧ callee.kind = .importCallee
  names : i.kind = .static → n.Lists n.ClauseBinds (fun m name => name = m.text) i.names

section Names

variable {n : Node} {α : Type}

theorem lists_nil {P : List Nat → Node → Prop} {R : Node → α → Prop} (h : ∀ p m, ¬P p m) :
    n.Lists P R [] :=
  ⟨[], ⟨.nil, fun p => by simp [h], by simp⟩, rfl⟩

theorem IsFirst.le {test : Node → Bool} {i j : Nat} {m m' : Node} (h : n.IsFirst test i m)
    (h' : n.IsFirst test j m') : j ≤ i := by
  obtain ⟨hget, htest, -⟩ := h
  obtain ⟨-, -, hbefore⟩ := h'
  by_contra hlt
  obtain ⟨hi, rfl⟩ := List.getElem?_eq_some_iff.mp hget
  have hmem : n.children[i] ∈ n.children.take j :=
    List.mem_take_iff_getElem.mpr ⟨i, by omega, rfl⟩
  rw [hbefore _ hmem] at htest
  exact Bool.false_ne_true htest

theorem exists_isFirst_of_find? {test : Node → Bool} {m : Node}
    (h : n.children.find? test = some m) : ∃ i, n.IsFirst test i m := by
  obtain ⟨htest, i, hi, rfl, hbefore⟩ := List.find?_eq_some_iff_getElem.mp h
  refine ⟨i, List.getElem?_eq_getElem hi, htest, fun c hc => ?_⟩
  obtain ⟨j, hj, rfl⟩ := List.mem_take_iff_getElem.mp hc
  simpa using hbefore j (by omega)

theorem lists_find (n : Node) (test : Node → Bool) (f : Node → α) :
    n.Lists (fun p m => ∃ i, p = [i] ∧ n.IsFirst test i m) (fun m x => x = f m)
      ((n.children.find? test).map f).toList := by
  cases hfind : n.children.find? test with
  | none =>
    refine lists_nil ?_
    rintro p m ⟨i, -, hm, htest, -⟩
    have hnone := List.find?_eq_none.mp hfind m (List.mem_of_getElem? hm)
    exact hnone htest
  | some m =>
    obtain ⟨i, hfirst⟩ := exists_isFirst_of_find? hfind
    have hplace : n.at? [i] = some m := at?_cons_eq_some_iff.mpr ⟨m, hfirst.1, rfl⟩
    refine ⟨[([i], f m)], ⟨List.pairwise_singleton _ _, fun p => ?_, ?_⟩, rfl⟩
    · rw [List.map_singleton, List.mem_singleton]
      constructor
      · rintro rfl
        exact ⟨m, hplace, i, rfl, hfirst⟩
      · rintro ⟨m', -, j, rfl, hfirst'⟩
        rw [Nat.le_antisymm (hfirst.le hfirst') (hfirst'.le hfirst)]
    · intro mark hmark
      rw [List.mem_singleton.mp hmark]
      exact ⟨m, hplace, rfl⟩

/-- The name for the file in an entry of an import list. -/
def localName? (n : Node) : Option String :=
  (n.textOf? .name).map fun name => (n.textOf? .alias).getD name

theorem lists_localName (n : Node) :
    n.Lists (fun p m => ∃ i, p = [i] ∧ n.IsLocalName i m) (fun m x => x = m.text)
      n.localName?.toList := by
  unfold localName? textOf?
  cases hname : n.child? .name with
  | none =>
    refine lists_nil ?_
    rintro p m ⟨i, -, hsome, -⟩
    rw [hname] at hsome
    exact absurd hsome Bool.false_ne_true
  | some name =>
    have hlists := lists_find n
      (·.role == some (if (n.child? .alias).isSome then .alias else .name)) Node.text
    have htext : (n.children.find?
        (·.role == some (if (n.child? .alias).isSome then .alias else .name))).map Node.text =
          some (((n.child? .alias).map Node.text).getD name.text) := by
      cases hother : n.child? .alias with
      | none => exact congrArg (Option.map Node.text) hname
      | some other => exact congrArg (Option.map Node.text) hother
    rw [htext] at hlists
    refine hlists.congr fun p m _ => ?_
    simp [IsLocalName, hname]

theorem names_clauseBindings (n : Node) : (n.clauseBindings).map Binding.name =
    match n.kind with
    | .identifier => [n.text]
    | .namespaceImport => ((n.children.find? (·.kind == .identifier)).map Node.text).toList
    | .namedImports => n.children.flatMap fun entry =>
        if entry.kind = .importSpecifier then entry.localName?.toList else []
    | _ => [] := by
  obtain ⟨kind, role, text, row, column, entries⟩ := n
  unfold clauseBindings
  dsimp only
  split
  next => rfl
  next => cases entries.find? (·.kind == .identifier) <;> rfl
  next =>
    show ((ofKind .importSpecifier entries).filterMap _).map Binding.name = entries.flatMap _
    unfold ofKind
    induction entries with
    | nil => rfl
    | cons entry entries ih =>
      rw [List.flatMap_cons, ← ih, List.filter_cons]
      by_cases hkind : entry.kind = .importSpecifier
      · cases hname : entry.textOf? .name <;> simp [hkind, localName?, hname, Binding.name]
      · simp [hkind]
  next => simp_all

theorem lists_partBinds (n : Node) :
    n.Lists n.PartBinds (fun m x => x = m.text) (n.clauseBindings.map Binding.name) := by
  rw [names_clauseBindings]
  split
  next hkind =>
    have hself : n.Lists (fun p _ => p = [] ∧ (some n.text).isSome = true)
        (fun m x => x = m.text) [n.text] :=
      Lists.self fun x hx => (Option.some.inj hx).symm
    refine hself.congr fun p m hm => ⟨?_, ?_⟩
    · rintro ⟨rfl, -⟩
      obtain rfl : n = m := Option.some.inj hm
      exact .default hkind
    · intro h
      cases h with
      | default => exact ⟨rfl, rfl⟩
      | allOf hkind' | named hkind' =>
        rw [hkind] at hkind'
        cases hkind'
  next hkind =>
    refine (lists_find n _ _).congr fun p m _ => ⟨?_, ?_⟩
    · rintro ⟨i, rfl, hm⟩
      exact .allOf hkind hm
    · intro h
      cases h with
      | allOf _ hm => exact ⟨_, rfl, hm⟩
      | default hkind' | named hkind' =>
        rw [hkind] at hkind'
        cases hkind'
  next hkind =>
    have hentries := Lists.children (n := n)
      (P := fun entry p m => entry.kind = .importSpecifier ∧ ∃ j, p = [j] ∧ entry.IsLocalName j m)
      (R := fun m x => x = m.text)
      (f := fun entry : Node =>
        if entry.kind = .importSpecifier then entry.localName?.toList else []) fun entry _ => by
        split
        next hentry => exact (lists_localName entry).congr fun p m _ => by simp [hentry]
        next hentry => exact lists_nil fun p m h => hentry h.1
    refine hentries.congr fun p m _ => ⟨?_, ?_⟩
    · rintro ⟨i, q, entry, rfl, hentry, hspecifier, j, rfl, hm⟩
      exact .named hkind hentry hspecifier hm
    · intro h
      cases h with
      | named _ hentry hspecifier hm => exact ⟨_, _, _, rfl, hentry, hspecifier, _, rfl, hm⟩
      | default hkind' | allOf hkind' =>
        rw [hkind] at hkind'
        cases hkind'
  next hidentifier hall hnamed =>
    refine lists_nil fun p m h => ?_
    cases h with
    | default hkind => exact hidentifier hkind
    | allOf hkind => exact hall hkind
    | named hkind => exact hnamed hkind

/-- The names of a statement without a clause of another kind are those of its import clause. -/
theorem lists_clauseBinds (h : ∀ c ∈ n.children, c.kind ≠ .importRequireClause) :
    n.Lists n.ClauseBinds (fun m x => x = m.text)
      ((n.children.flatMap importBindings).map Binding.name) := by
  rw [List.map_flatMap]
  have hclauses := Lists.children (n := n) (R := fun m x => x = m.text)
    (P := fun clause p m => clause.kind = .importClause ∧
      ∃ j q part, p = j :: q ∧ clause.children[j]? = some part ∧ part.PartBinds q m)
    (f := fun clause => clause.importBindings.map Binding.name) fun clause hclause => by
      unfold importBindings
      split
      next hkind =>
        rw [List.map_flatMap]
        refine (Lists.children fun part _ => lists_partBinds part).congr fun p m _ => ?_
        simp [hkind]
      next hkind => exact absurd hkind (h clause hclause)
      next hkind _ => exact lists_nil fun p m h => hkind h.1
  refine hclauses.congr fun p m _ => ?_
  constructor
  · rintro ⟨i, q, clause, rfl, hclause, hkind, j, q, part, rfl, hpart, hm⟩
    exact ⟨i, j, q, clause, part, rfl, hclause, hkind, hpart, hm⟩
  · rintro ⟨i, j, q, clause, part, rfl, hclause, hkind, hpart, hm⟩
    exact ⟨i, j :: q, clause, rfl, hclause, hkind, j, q, part, rfl, hpart, hm⟩

end Names

section Import

variable {file : String} {parent : Option Node} {n : Node} {i : Import}

theorem says_of_statementImport? (hkind : n.kind = .importStatement)
    (hi : n.statementImport? file = some i) : n.Says file i := by
  unfold statementImport? at hi
  obtain ⟨source, hsource, hi⟩ := Option.bind_eq_some_iff.mp hi
  dsimp only at hi
  split at hi
  · cases hi
  cases hi
  have hclause : n.children.any (·.kind == .importRequireClause) = false ↔
      ∀ c ∈ n.children, c.kind ≠ .importRequireClause := by simp
  refine ⟨rfl, rfl, ⟨source, ?_, rfl⟩, ?_, ?_, fun hstatic => ?_⟩
  · rw [moduleLiteral?, hkind]
    exact hsource
  · rw [← hclause]
    cases n.children.any (·.kind == .importRequireClause) <;> simp [hkind]
  · cases n.children.any (·.kind == .importRequireClause) <;> simp [hkind]
  · refine lists_clauseBinds (hclause.mp (Bool.eq_false_iff.mpr fun hany => ?_))
    simp [hany] at hstatic

theorem isSome_statementImport? : (n.statementImport? file).isSome = true ↔
    ∃ s, (n.children.flatMap importSources).getLast? = some s ∧ unquote s.text ≠ "" := by
  unfold statementImport?
  cases (n.children.flatMap importSources).getLast? with
  | none => simp
  | some source =>
    by_cases hempty : unquote source.text = "" <;> simp [hempty]

theorem loads?_eq_some_iff {kind : ImportKind} {callee : Node} :
    callee.loads? = some kind ↔
      (callee.kind = .identifier ∧ callee.text = "require" ∧ kind = .require) ∨
        callee.kind = .importCallee ∧ kind = .dynamic := by
  unfold loads?
  split
  next hkind => by_cases htext : callee.text = "require" <;> simp [hkind, htext, eq_comm]
  next hkind => simp [hkind, eq_comm]
  next hidentifier hcallee =>
    have hother : ¬(callee.kind = .identifier ∨ callee.kind = .importCallee) :=
      fun h => h.elim hidentifier hcallee
    constructor
    · exact fun h => absurd h.symm (Option.some_ne_none kind)
    · exact fun h => absurd (h.imp And.left And.left) hother

theorem says_of_callImport? (hkind : n.kind = .callExpression)
    (hi : n.callImport? file parent = some i) : n.Says file i := by
  unfold callImport? at hi
  obtain ⟨callee, hcallee, hi⟩ := Option.bind_eq_some_iff.mp hi
  obtain ⟨kind, hloads, hi⟩ := Option.bind_eq_some_iff.mp hi
  obtain ⟨arguments, harguments, hi⟩ := Option.bind_eq_some_iff.mp hi
  obtain ⟨source, hsource, hi⟩ := Option.bind_eq_some_iff.mp hi
  cases hi
  have hstatic : kind ≠ .static := by
    rintro rfl
    simp [loads?_eq_some_iff] at hloads
  refine ⟨rfl, rfl, ⟨source, ?_, rfl⟩, ?_, ?_, fun h => absurd h hstatic⟩
  · rw [moduleLiteral?, hkind]
    exact Option.bind_eq_some_iff.mpr ⟨arguments, harguments, hsource⟩
  · simp [hstatic, hkind]
  · rcases loads?_eq_some_iff.mp hloads with ⟨hidentifier, -, rfl⟩ | ⟨himport, rfl⟩
    · simp [hkind, hcallee, hidentifier]
    · simp [hkind, hcallee, himport]

theorem isSome_callImport? (hkind : n.kind = .callExpression) :
    (n.callImport? file parent).isSome = true ↔
      (∃ s, n.moduleLiteral? = some s) ∧ n.CallsLoader := by
  have hloads : n.CallsLoader ↔
      ((n.child? .callee).bind loads?).isSome = true := by
    rw [Option.isSome_iff_exists]
    unfold CallsLoader
    simp only [Option.bind_eq_some_iff, loads?_eq_some_iff]
    grind
  have hmodule : n.moduleLiteral? =
      (n.child? .arguments).bind fun a => a.children.find? (·.kind == .string) := by
    rw [moduleLiteral?, hkind]
  rw [hloads, hmodule, ← Option.isSome_iff_exists]
  unfold callImport?
  cases n.child? .callee with
  | none => simp
  | some callee =>
    cases hkind : callee.loads? with
    | none => simp [hkind]
    | some kind =>
      cases n.child? .arguments with
      | none => simp [hkind]
      | some a => cases hfind : a.children.find? (·.kind == .string) <;> simp [hkind, hfind]

theorem says_of_import? (hi : n.import? file parent = some i) : n.Says file i := by
  unfold import? at hi
  split at hi
  next hkind => exact says_of_statementImport? hkind hi
  next hkind => exact says_of_callImport? hkind hi
  next => cases hi

theorem isSome_import? : (n.import? file parent).isSome = true ↔ n.ImportsModule := by
  unfold import? ImportsModule
  split
  next hkind =>
    rw [isSome_statementImport?, moduleLiteral?, hkind]
    simp
  next hkind =>
    rw [isSome_callImport? hkind]
    simp [hkind]
  next hstatement hcall =>
    constructor
    · exact fun h => absurd h Bool.false_ne_true
    · rintro ⟨s, -, ⟨hkind, -⟩ | ⟨hkind, -⟩⟩
      · exact absurd hkind hstatement
      · exact absurd hkind hcall

end Import

end Node

namespace Facts

variable {file : String}

theorem foldl_visit (xs : List (Option Node × Node)) (facts : Facts) :
    xs.foldl (fun facts x => (visit file x.1 x.2 facts).2) facts =
      ⟨facts.imports ++ xs.filterMap fun x => x.2.import? file x.1,
        facts.exports ++ xs.flatMap fun x => x.2.exported⟩ := by
  induction xs generalizing facts with
  | nil => simp
  | cons x xs ih =>
    have hvisit : (visit file x.1 x.2 facts).2 =
        ⟨facts.imports ++ (x.2.import? file x.1).toList, facts.exports ++ x.2.exported⟩ := by
      unfold visit Node.import? Node.exported
      split <;> simp_all
    rw [List.foldl_cons, ih, hvisit, List.flatMap_cons, List.append_assoc]
    cases himport : x.2.import? file x.1 <;> simp [himport]

/-- The facts of a tree are those of the nodes outside of its import statements, one by one. -/
theorem ofTree_eq (file : String) (root : Node) : ofTree file root =
    ⟨(root.met Node.isOpen none).filterMap fun x => x.2.import? file x.1,
      (root.met Node.isOpen none).flatMap fun x => x.2.exported⟩ := by
  have hvisit : ∀ (parent : Option Node) (n : Node) (facts : Facts),
      (visit file parent n facts).1 = if n.isOpen then .enter else .skip := by
    intro parent n facts
    unfold visit Node.isOpen
    split <;> simp_all
  unfold ofTree
  rw [Node.walk_eq_foldl hvisit, foldl_visit]
  rfl

/-- Each node outside of all import statements that imports a module is one import, and there are no
others. They come in source order, so their lines grow if the tree is in the order of its source. -/
theorem lists_imports (file : String) (root : Node) :
    root.Lists (fun p m => root.Reached Node.isOpen p ∧ m.ImportsModule) (Node.Says file)
        (ofTree file root).imports ∧
      (root.InOrder → (ofTree file root).imports.Pairwise fun i j => i.line ≤ j.line) := by
  have hlists : root.Lists (fun p m => root.Reached Node.isOpen p ∧ m.ImportsModule)
      (Node.Says file) (ofTree file root).imports := by
    rw [ofTree_eq]
    refine (Node.lists_met root none).filterMap _ ?_ ?_
    · rintro p m ⟨parent, -⟩ - rfl
      exact Node.isSome_import?
    · rintro m ⟨parent, x⟩ i rfl hi
      exact Node.says_of_import? hi
  refine ⟨hlists, fun horder => hlists.pairwise ?_⟩
  intro p q m m' i j hlt hm hm' hi hj
  have hrow : m.row ≤ m'.row := horder.row_le hlt hm hm'
  rw [hi.line, hj.line]
  exact Nat.succ_le_succ hrow

theorem lists_imports_nested :
    let root := (Program.read .typeScript
      "import a, \x7b b as c \x7d from 'x';\nc(() => import('y'));").root
    root.InOrder ∧
      (ofTree "a.ts" root).imports.map (fun i => (i.kind, i.specifier, i.names, i.line)) =
        [(.static, "x", ["a", "c"], 1), (.dynamic, "y", [], 2)] ∧
      (ofTree "a.ts" root).imports.Pairwise fun i j => i.line ≤ j.line := by
  intro root
  have horder : root.InOrder := by decide +kernel
  have himports :
      (ofTree "a.ts" root).imports.map (fun i => (i.kind, i.specifier, i.names, i.line)) =
        [(.static, "x", ["a", "c"], 1), (.dynamic, "y", [], 2)] := by decide +kernel
  exact ⟨horder, himports, (lists_imports "a.ts" root).2 horder⟩

end Facts

end CodeAtlas
