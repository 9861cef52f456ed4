import CodeAtlas.Proofs.Extraction.References
import CodeAtlas.Proofs.Extraction.Statements
import Mathlib.Data.List.Basic
import Mathlib.Data.List.Flatten

/-! The names that imports bind and nothing refers to. There is one entry for each
place where a static import binds a name that is mentioned nowhere else, in source order. What
statements bind does not depend on where they stand, so more mentions only take entries away. -/

namespace CodeAtlas

namespace Node

variable {root n m : Node} {file name specifier : String} {p q : List Nat}

/-- Whether a node is a statement that imports a module as it is, and not by `require`. -/
def ImportsStatically (n : Node) (specifier : String) : Prop :=
  n.kind = .importStatement ∧ (∀ c ∈ n.children, c.kind ≠ .importRequireClause) ∧
    ∃ s, n.moduleLiteral? = some s ∧ unquote s.text = specifier ∧ specifier ≠ ""

/-- Whether a place is one where a static import outside of all others binds a name to which nothing
refers. -/
def BindsUnused (root : Node) (p : List Nat) (name specifier : String) : Prop :=
  ∃ q r n m, p = q ++ r ∧ root.at? q = some n ∧ root.Reached isOpen q ∧
    n.ImportsStatically specifier ∧ n.at? r = some m ∧ n.ClauseBinds r m ∧ m.text = name ∧
    ¬root.Mentions name

/-- The import that a statement is if it is a static one. -/
def staticImport? (file : String) (n : Node) : Option Import :=
  (n.statementImport? file).filter (·.kind == .static)

/-- The names that an import binds and a tree does not mention, with its module. -/
def unusedOf (root : Node) (i : Import) : List (String × String) :=
  (i.names.filter fun name => !root.references.contains name).map (·, i.specifier)

theorem staticImport?_eq_some_iff {i : Import} (hkind : n.kind = .importStatement) :
    n.staticImport? file = some i ↔
      n.statementImport? file = some i ∧ ∀ c ∈ n.children, c.kind ≠ .importRequireClause := by
  rw [staticImport?, Option.filter_eq_some_iff, beq_iff_eq]
  refine and_congr_right fun hi => ?_
  rw [(says_of_statementImport? hkind hi).static]
  exact and_iff_right hkind

theorem isSome_staticImport? (file : String) (hkind : n.kind = .importStatement) :
    (n.staticImport? file).isSome = true ↔ ∃ specifier, n.ImportsStatically specifier := by
  have hmodule : n.moduleLiteral? = (n.children.flatMap importSources).getLast? := by
    rw [moduleLiteral?, hkind]
  rw [Option.isSome_iff_exists]
  simp only [staticImport?_eq_some_iff hkind]
  rw [exists_and_right, ← Option.isSome_iff_exists, isSome_statementImport?, ← hmodule]
  constructor
  · rintro ⟨⟨s, hs, hne⟩, hclause⟩
    exact ⟨unquote s.text, hkind, hclause, s, hs, rfl, hne⟩
  · rintro ⟨specifier, -, hclause, s, hs, rfl, hne⟩
    exact ⟨⟨s, hs, hne⟩, hclause⟩

theorem importsStatically_iff {i : Import} (hkind : n.kind = .importStatement)
    (hi : n.staticImport? file = some i) :
    n.ImportsStatically specifier ↔ specifier = i.specifier := by
  obtain ⟨hi', hclause⟩ := (staticImport?_eq_some_iff hkind).mp hi
  obtain ⟨s, hs, hspecifier⟩ := (says_of_statementImport? hkind hi').specifier
  obtain ⟨specifier', hstatic⟩ := (isSome_staticImport? file hkind).mp (by rw [hi]; rfl)
  constructor
  · rintro ⟨-, -, s', hs', rfl, -⟩
    obtain rfl : s = s' := Option.some.inj (hs.symm.trans hs')
    exact hspecifier.symm
  · rintro rfl
    obtain ⟨-, -, s', hs', rfl, hne⟩ := hstatic
    obtain rfl : s = s' := Option.some.inj (hs.symm.trans hs')
    exact ⟨hkind, hclause, s, hs, hspecifier.symm, hspecifier ▸ hne⟩

theorem staticImport?_unplaced (file file' : String) (n : Node) :
    n.unplaced.staticImport? file' =
      (n.staticImport? file).map (firstIn file') := by
  rw [staticImport?, staticImport?, statementImport?_unplaced file file']
  cases n.statementImport? file with
  | none => rfl
  | some i => cases i with | mk _ _ _ kind _ _ => cases kind <;> rfl

/-- An import statement has one mark for each name that it binds and the tree does not mention. -/
theorem lists_unusedOf (root : Node) {i : Import} (hkind : n.kind = .importStatement)
    (hi : n.staticImport? file = some i) :
    n.Lists (fun p m => n.ClauseBinds p m ∧ ¬root.Mentions m.text)
      (fun m x => x = (m.text, i.specifier)) (unusedOf root i) := by
  obtain ⟨hi', hclause⟩ := (staticImport?_eq_some_iff hkind).mp hi
  have himport := says_of_statementImport? hkind hi'
  have hnames := himport.names (himport.static.mpr ⟨hkind, hclause⟩)
  rw [unusedOf, ← List.filterMap_eq_map, List.filterMap_filter]
  refine hnames.filterMap _ ?_ ?_
  · rintro p m name - rfl
    rw [← mem_references]
    simp
  · rintro m name x rfl hx
    split at hx
    · exact (Option.some.inj hx).symm
    · cases hx

/-- The places of the static imports of a tree. -/
def StaticAt (root : Node) (p : List Nat) (n : Node) : Prop :=
  root.Reached isOpen p ∧ ∃ specifier, n.ImportsStatically specifier

theorem lists_static (file : String) (root : Node) :
    root.Lists root.StaticAt (fun n i => n.staticImport? file = some i)
      (root.importStatements.filterMap (staticImport? file)) := by
  have hlists : root.Lists
      (fun p n => (root.Reached isOpen p ∧ n.kind = .importStatement) ∧
        ∃ specifier, n.ImportsStatically specifier)
      (fun n i => n.staticImport? file = some i)
      (root.importStatements.filterMap (staticImport? file)) := by
    refine (lists_importStatements root).filterMap _ ?_ ?_
    · rintro p m n ⟨-, hkind⟩ rfl
      exact isSome_staticImport? file hkind
    · rintro m n i rfl hi
      exact hi
  refine hlists.congr fun p n _ => ⟨fun h => ⟨h.1.1, h.2⟩, fun h => ?_⟩
  obtain ⟨hreached, specifier, hstatic⟩ := h
  exact ⟨⟨hreached, hstatic.1⟩, specifier, hstatic⟩

/-- No statement is below another one, since those in others are left out. -/
theorem StaticAt.not_prefix (hp : root.StaticAt p n)
    (hq : root.StaticAt q m) (hn : root.at? p = some n) (hlt : p < q) : ¬p <+: q := by
  intro hprefix
  obtain ⟨-, -, hkind, -⟩ := hp
  have hopen := hq.1 p n hprefix (fun heq => List.lt_irrefl _ (heq ▸ hlt)) hn
  rw [isOpen, hkind] at hopen
  exact absurd hopen (by decide)

/-- The marks of the names that are not used. -/
theorem exists_marks_unused (file : String) (root : Node) :
    ∃ marks : List (List Nat × String × String), marks.Pairwise (fun a b => a.1 < b.1) ∧
      (∀ p x, (p, x) ∈ marks ↔ root.BindsUnused p x.1 x.2) ∧
      marks.map Prod.snd =
        (root.importStatements.filterMap (staticImport? file)).flatMap (unusedOf root) := by
  obtain ⟨statements, hmarked, himports⟩ := lists_static file root
  have hapart : statements.Pairwise fun a b => a.1 < b.1 ∧ ¬a.1 <+: b.1 := by
    refine hmarked.sorted.imp_of_mem fun ha hb hlt => ⟨hlt, ?_⟩
    obtain ⟨n, hn, hp, -⟩ := hmarked.exists_node ha
    obtain ⟨m, -, hq, -⟩ := hmarked.exists_node hb
    exact hp.not_prefix hq hn hlt
  obtain ⟨marks, hsorted, hmem, hmarks⟩ := exists_marks_below hapart
    (f := fun a => unusedOf root a.2)
    (H := fun a q y => ∃ n m, root.at? a.1 = some n ∧ n.at? q = some m ∧
      (n.ClauseBinds q m ∧ ¬root.Mentions m.text) ∧ y = (m.text, a.2.specifier)) fun a ha => by
    obtain ⟨n, hn, ⟨-, -, hkind, -⟩, hi⟩ := hmarked.exists_node ha
    obtain ⟨below, hbelow, hmem, hsnd⟩ := (lists_unusedOf root hkind hi).exists_marks_eq
    refine ⟨below, hbelow, fun q y => (hmem q y).trans ?_, hsnd⟩
    simp only [hn, Option.some.injEq, exists_and_left, exists_eq_left']
  refine ⟨marks, hsorted, fun p x => (hmem p x).trans ⟨?_, ?_⟩, ?_⟩
  · rintro ⟨a, ha, q, rfl, n, m, hn, hm, ⟨hbinds, hmentions⟩, rfl⟩
    obtain ⟨n', hn', ⟨hreached, -, hkind, -⟩, hi⟩ := hmarked.exists_node ha
    obtain rfl : n = n' := Option.some.inj (hn.symm.trans hn')
    have hstatic : n.ImportsStatically a.2.specifier := (importsStatically_iff hkind hi).mpr rfl
    exact ⟨a.1, q, n, m, rfl, hn, hreached, hstatic, hm, hbinds, rfl, hmentions⟩
  · rintro ⟨q, r, n, m, rfl, hn, hreached, hstatic, hm, hbinds, hname, hmentions⟩
    obtain ⟨i, hmark, hi⟩ := hmarked.exists_mark hn ⟨hreached, _, hstatic⟩
    refine ⟨(q, i), hmark, r, rfl, n, m, hn, hm, ⟨hbinds, hname ▸ hmentions⟩, ?_⟩
    exact Prod.ext hname.symm ((importsStatically_iff hstatic.1 hi).mp hstatic)
  · rw [hmarks, ← himports, List.flatMap_map]

end Node

open Node

variable {root : Node}

theorem static_ofTree (file : String) (root : Node) :
    (Facts.ofTree file root).imports.filter (·.kind == .static) =
      root.importStatements.filterMap (staticImport? file) := by
  rw [Facts.ofTree_eq, importStatements, List.filterMap_filterMap, List.filter_filterMap]
  refine List.filterMap_congr fun x _ => ?_
  by_cases hkind : x.2.kind = .importStatement
  · rw [if_pos hkind, Option.bind_some, import?, hkind]
    rfl
  · rw [if_neg hkind, Option.bind_none, Option.filter_eq_none_iff]
    intro i hi hstatic
    exact hkind ((says_of_import? hi).static.mp (beq_iff_eq.mp hstatic)).1

theorem unusedBindings_eq (root : Node) (imports : List Import) : unusedBindings root imports =
    ((imports.filter (·.kind == .static)).flatMap (unusedOf root)).map
      fun x => x.1 ++ " from '" ++ x.2 ++ "'" := by
  rw [unusedBindings, List.map_flatMap]
  refine List.flatMap_congr fun i _ => ?_
  rw [unusedOf, List.map_map]
  rfl

theorem unusedBindings_ofTree (file : String) (root : Node) :
    unusedBindings root (Facts.ofTree file root).imports =
      ((root.importStatements.filterMap (staticImport? file)).flatMap (unusedOf root)).map
        fun x => x.1 ++ " from '" ++ x.2 ++ "'" := by
  rw [unusedBindings_eq, static_ofTree]

/-- The same import statements import the same names from the same modules. -/
theorem unusedOf_importStatements (file file' : String) {root' : Node}
    (h : root.importStatements.map unplaced = root'.importStatements.map unplaced) :
    (root'.importStatements.filterMap (staticImport? file')).flatMap (unusedOf root) =
      (root.importStatements.filterMap (staticImport? file)).flatMap (unusedOf root) := by
  have hanywhere (file : String) (ns : List Node) :
      (ns.filterMap (staticImport? file)).flatMap (unusedOf root) =
        ((ns.map unplaced).filterMap (staticImport? "")).flatMap (unusedOf root) := by
    have hunplaced : staticImport? "" ∘ unplaced =
        fun n => (n.staticImport? file).map (firstIn "") :=
      funext fun n => staticImport?_unplaced file "" n
    rw [List.filterMap_map, hunplaced, ← List.map_filterMap, List.flatMap_map]
    rfl
  rw [hanywhere file', hanywhere file, h]

theorem unusedOf_sublist {root' : Node} (h : ∀ name, root.Mentions name → root'.Mentions name)
    (i : Import) : (unusedOf root' i).Sublist (unusedOf root i) := by
  refine (List.monotone_filter_right _ fun name hname => ?_).map _
  simp only [Bool.not_eq_true', List.contains_eq_mem, decide_eq_false_iff_not,
    mem_references] at hname ⊢
  exact fun hmention => hname (h name hmention)

/-- The unused imports of a tree are told by the places where a static import binds a name that is
mentioned nowhere outside of import statements: one for each, in source order, with the name and the
module. So a tree with the same import statements and all mentions of another one has no other
unused imports. -/
theorem unusedBindings_exact :
    (∀ file root, ∃ marks : List (List Nat × String × String),
      marks.Pairwise (fun a b => a.1 < b.1) ∧
      (∀ p name specifier, (p, name, specifier) ∈ marks ↔ root.BindsUnused p name specifier) ∧
      unusedBindings root (Facts.ofTree file root).imports =
        marks.map fun mark => mark.2.1 ++ " from '" ++ mark.2.2 ++ "'") ∧
    ∀ file file' root root',
      root.importStatements.map unplaced = root'.importStatements.map unplaced →
      (∀ name, root.Mentions name → root'.Mentions name) →
      (unusedBindings root' (Facts.ofTree file' root').imports).Sublist
        (unusedBindings root (Facts.ofTree file root).imports) := by
  refine ⟨fun file root => ?_, fun file file' root root' hsame hmentions => ?_⟩
  · obtain ⟨marks, hsorted, hmem, hmarks⟩ := exists_marks_unused file root
    refine ⟨marks, hsorted, fun p name specifier => hmem p (name, specifier), ?_⟩
    rw [unusedBindings_ofTree, ← hmarks, List.map_map]
    rfl
  · rw [unusedBindings_ofTree, unusedBindings_ofTree, ← unusedOf_importStatements file file' hsame]
    exact (List.Sublist.flatMap_right _ fun i _ => unusedOf_sublist hmentions i).map _

theorem unusedBindings_exact_more :
    let root := (Program.read .typeScript "import a, \x7b b as c, d \x7d from 'x';\na();").root
    let root' := (Program.read .typeScript
      "// more\nimport a, \x7b b as c, d \x7d from 'x';\nf(a, d);").root
    root.importStatements.map unplaced = root'.importStatements.map unplaced ∧
      (∀ name, root.Mentions name → root'.Mentions name) ∧
      unusedBindings root (Facts.ofTree "a.ts" root).imports = ["c from 'x'", "d from 'x'"] ∧
      (unusedBindings root' (Facts.ofTree "b.ts" root').imports).Sublist
        ["c from 'x'", "d from 'x'"] := by
  intro root root'
  have hsame : root.importStatements.map unplaced = root'.importStatements.map unplaced := by
    decide +kernel
  have hmentions : ∀ name, root.Mentions name → root'.Mentions name := by
    have hreferences : ∀ name ∈ root.references, name ∈ root'.references := by decide +kernel
    intro name
    rw [← mem_references, ← mem_references]
    exact hreferences name
  have hunused : unusedBindings root (Facts.ofTree "a.ts" root).imports =
      ["c from 'x'", "d from 'x'"] := by decide +kernel
  refine ⟨hsame, hmentions, hunused, ?_⟩
  rw [← hunused]
  exact unusedBindings_exact.2 "a.ts" "b.ts" root root' hsame hmentions

end CodeAtlas
