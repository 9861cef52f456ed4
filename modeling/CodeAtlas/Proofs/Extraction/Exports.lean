import CodeAtlas.Proofs.Dependency.Rankings
import CodeAtlas.Proofs.Extraction.Imports
import CodeAtlas.Proofs.Grammar.ExportStatements

/-! The exports of declarations. A declaration binds its own name, or the names in the targets of
its variables, at any depth of their patterns; what is exported are its own name and the targets
that are plain names. So names are lost if and only if a pattern binds them. -/

namespace CodeAtlas

namespace Node

mutual

/-- The names that the target of a variable binds, in source order. -/
def boundNames : Node → List String
  | ⟨kind, _, text, _, _, children⟩ =>
    match kind with
    | .identifier | .shorthandBinding => [text]
    | .objectPattern | .arrayPattern | .restPattern => boundNamesOfAll children
    | .pairPattern => boundNamesOfValue children
    | .assignmentPattern | .objectAssignmentPattern => boundNamesOfFirst children
    | _ => []

def boundNamesOfAll : List Node → List String
  | [] => []
  | n :: ns => n.boundNames ++ boundNamesOfAll ns

def boundNamesOfValue : List Node → List String
  | [] => []
  | n :: ns => if n.role == some .value then n.boundNames else boundNamesOfValue ns

/-- What is behind the first child is the value that is bound where there is no other. -/
def boundNamesOfFirst : List Node → List String
  | [] => []
  | n :: _ => n.boundNames

end

/-- What a declarator binds a value to. -/
def target? (n : Node) : Option Node :=
  if n.kind = .variableDeclarator then n.child? .name else none

mutual

/-- The targets of the variables that a declaration declares, in source order. -/
def targets : Node → List Node
  | ⟨kind, _, _, _, _, children⟩ =>
    match kind with
    | .lexicalDeclaration | .variableDeclaration => children.filterMap target?
    | .ambientDeclaration => targetsOfAll children
    | _ => []

def targetsOfAll : List Node → List Node
  | [] => []
  | n :: ns => if n.isNamed then n.targets ++ targetsOfAll ns else targetsOfAll ns

end

mutual

/-- The names that a declaration binds, in source order. -/
def bindings : Node → List String
  | ⟨kind, _, _, _, _, children⟩ =>
    match kind with
    | .lexicalDeclaration | .variableDeclaration =>
      (children.filterMap target?).flatMap boundNames
    | .ambientDeclaration => bindingsOfAll children
    | _ => ((children.find? (·.role == some .name)).map text).toList

def bindingsOfAll : List Node → List String
  | [] => []
  | n :: ns => if n.isNamed then n.bindings ++ bindingsOfAll ns else bindingsOfAll ns

end

/-- The name that a target is, if it is no pattern. -/
def plainName? (n : Node) : Option String := if n.kind = .identifier then some n.text else none

/-- Whether a target binds no names but the one that it is. -/
def BindsPlainly (n : Node) : Prop := n.kind = .identifier ∨ n.boundNames = []

section Declarations

variable {n : Node}

theorem boundNames_of_identifier (h : n.kind = .identifier) : n.boundNames = [n.text] := by
  obtain ⟨kind, role, text, row, column, children⟩ := n
  obtain rfl : kind = .identifier := h
  rw [boundNames]

theorem plainName?_sublist (n : Node) : n.plainName?.toList.Sublist n.boundNames := by
  unfold plainName?
  split
  next h =>
    rw [boundNames_of_identifier h]
    exact List.Sublist.refl _
  next => exact List.nil_sublist _

theorem plainName?_eq_boundNames_iff : n.plainName?.toList = n.boundNames ↔ n.BindsPlainly := by
  unfold plainName?
  split
  next h => exact ⟨fun _ => .inl h, fun _ => (boundNames_of_identifier h).symm⟩
  next h => exact ⟨fun hnone => .inr hnone.symm, fun hn => (hn.resolve_left h).symm⟩

/-- Parts of lists make up the whole of all if and only if each is the whole of its own. -/
theorem append_eq_append_iff_of_sublist {as bs cs ds : List String} (hab : as.Sublist bs)
    (hcd : cs.Sublist ds) : as ++ cs = bs ++ ds ↔ as = bs ∧ cs = ds := by
  constructor
  · intro h
    have hlength := congrArg List.length h
    rw [List.length_append, List.length_append] at hlength
    have hle := hab.length_le
    have hle' := hcd.length_le
    exact ⟨hab.eq_of_length (by omega), hcd.eq_of_length (by omega)⟩
  · rintro ⟨rfl, rfl⟩
    rfl

/-- Whether names are some of those that are bound, and all of them just if all targets bind
plainly. -/
structure Declares (names bound : List String) (targets : List Node) : Prop where
  sublist : names.Sublist bound
  eq_iff : names = bound ↔ ∀ t ∈ targets, t.BindsPlainly

theorem Declares.refl (names : List String) : Declares names names [] :=
  ⟨List.Sublist.refl names, by simp⟩

theorem Declares.append {names names' bound bound' : List String} {ts ts' : List Node}
    (h : Declares names bound ts) (h' : Declares names' bound' ts') :
    Declares (names ++ names') (bound ++ bound') (ts ++ ts') := by
  refine ⟨h.sublist.append h'.sublist, ?_⟩
  rw [append_eq_append_iff_of_sublist h.sublist h'.sublist, h.eq_iff, h'.eq_iff,
    List.forall_mem_append]

theorem declares_target (t : Node) : Declares t.plainName?.toList t.boundNames [t] :=
  ⟨t.plainName?_sublist, by rw [plainName?_eq_boundNames_iff, List.forall_mem_singleton]⟩

theorem declares_targets (ts : List Node) :
    Declares (ts.filterMap plainName?) (ts.flatMap boundNames) ts := by
  induction ts with
  | nil => exact .refl []
  | cons t ts ih =>
    have hcons : (t :: ts).filterMap plainName? =
        t.plainName?.toList ++ ts.filterMap plainName? := by
      cases h : t.plainName? <;> simp [h]
    rw [hcons, List.flatMap_cons, ← List.singleton_append]
    exact (declares_target t).append ih

theorem declares_variables (h : n.kind = .lexicalDeclaration ∨ n.kind = .variableDeclaration) :
    Declares n.declaredNames n.bindings n.targets := by
  have hnames : n.declaredNames = n.targets.filterMap plainName? := by
    obtain ⟨kind, role, text, row, column, children⟩ := n
    have hchildren : children.filterMap (fun d => if d.kind = .variableDeclarator then
        (d.child? .name).bind fun name => if name.kind = .identifier then some name.text else none
        else none) = (children.filterMap target?).filterMap plainName? := by
      rw [List.filterMap_filterMap]
      congr 1
      funext d
      unfold target?
      split <;> rfl
    rcases h with rfl | rfl
    · rw [declaredNames, targets, hchildren]
    · rw [declaredNames, targets, hchildren]
  have hbindings : n.bindings = n.targets.flatMap boundNames := by
    obtain ⟨kind, role, text, row, column, children⟩ := n
    rcases h with rfl | rfl
    · rw [bindings, targets]
    · rw [bindings, targets]
  rw [hnames, hbindings]
  exact declares_targets n.targets

theorem declares_all {ns : List Node}
    (h : ∀ n ∈ ns, Declares n.declaredNames n.bindings n.targets) :
    Declares (declaredNamesAll ns) (bindingsOfAll ns) (targetsOfAll ns) := by
  induction ns with
  | nil => exact .refl []
  | cons n ns ih =>
    rw [List.forall_mem_cons] at h
    rw [declaredNamesAll, bindingsOfAll, targetsOfAll]
    split
    · exact h.1.append (ih h.2)
    · exact ih h.2

/-- The declared names are those of all targets that are plain names. -/
theorem declares (n : Node) : Declares n.declaredNames n.bindings n.targets := by
  induction n using children_induction with
  | h n ih =>
    by_cases hvariables : n.kind = .lexicalDeclaration ∨ n.kind = .variableDeclaration
    · exact declares_variables hvariables
    · obtain ⟨kind, role, text, row, column, children⟩ := n
      obtain ⟨hlexical, hvariable⟩ := not_or.mp hvariables
      -- Only an ambient declaration holds declarations; all that are left have one name or none.
      by_cases hambient : kind = .ambientDeclaration
      · subst hambient
        rw [declaredNames, bindings, targets]
        exact declares_all ih
      · rw [declaredNames, bindings, targets]
        · exact .refl _
        all_goals assumption

example : (Program.read .typeScript
    "const \x7b a, b: [c, , ...d], e = f \x7d = g, h = i;").root.children.map bindings =
      [["a", "c", "d", "e", "h"]] := by decide +kernel

end Declarations

/-- Whether a child of a node is a token of its own with the given text. -/
def hasToken (n : Node) (text : String) : Bool :=
  n.children.any fun c => c.kind == .token && c.text == text

/-- Whether exports are those of an export statement with a declaration: a default export goes by
the name of the declaration, and other exports are all names that it binds just if its targets bind
plainly. -/
structure ExportsDeclared (n declaration : Node) (es : List Export) : Prop where
  default : n.hasToken "default" = true →
    es = [⟨(declaration.textOf? .name).getD "default", .default, n.row + 1, none⟩]
  named : n.hasToken "default" = false →
    es = declaration.declaredNames.map (⟨·, .named, n.row + 1, none⟩)
  all_iff : n.hasToken "default" = false →
    (es.map Export.name = declaration.bindings ↔ ∀ t ∈ declaration.targets, t.BindsPlainly)

section Statements

variable {n declaration : Node}

theorem isExportList_eq_false_iff : n.isExportList = false ↔ n.role ≠ some .value ∧
    n.kind ≠ .exportClause ∧ n.kind ≠ .namespaceExport ∧ ¬(n.kind = .token ∧ n.text = "*") := by
  unfold isExportList
  simp [and_assoc]

theorem add_of_not_isExportList (h : n.isExportList = false) (isDefault : Bool) :
    ExportMarks.add ⟨isDefault, false, none, none⟩ n =
      ⟨isDefault || (n.kind == .token && n.text == "default"), false, none, none⟩ := by
  obtain ⟨-, hclause, hall, hstar⟩ := isExportList_eq_false_iff.mp h
  unfold ExportMarks.add
  split
  next hkind =>
    have hother : n.text ≠ "*" := fun htext => hstar ⟨hkind, htext⟩
    by_cases htext : n.text = "default" <;> simp [hkind, htext, hother]
  next hkind => exact absurd hkind hall
  next hkind => simp [hkind]
  next hkind => exact absurd hkind hclause
  next htoken _ _ _ =>
    have hkind : (n.kind == .token) = false := beq_eq_false_iff_ne.mpr htoken
    rw [hkind, Bool.false_and, Bool.or_false]

/-- A statement that lists no exports is marked at most as the default. -/
theorem exportMarks_eq (hparts : ∀ c ∈ n.children, c.isExportList = false) :
    n.exportMarks = ⟨n.hasToken "default", false, none, none⟩ := by
  have hfold (ns : List Node) (isDefault : Bool) (hns : ∀ c ∈ ns, c.isExportList = false) :
      ns.foldl ExportMarks.add ⟨isDefault, false, none, none⟩ =
        ⟨isDefault || ns.any fun c => c.kind == .token && c.text == "default",
          false, none, none⟩ := by
    induction ns generalizing isDefault with
    | nil => rw [List.foldl_nil, List.any_nil, Bool.or_false]
    | cons c ns ih =>
      rw [List.forall_mem_cons] at hns
      rw [List.foldl_cons, add_of_not_isExportList hns.1, ih _ hns.2, List.any_cons, Bool.or_assoc]
  exact hfold n.children false hparts

theorem exportsDeclared_statementExports (hparts : ∀ c ∈ n.children, c.isExportList = false)
    (hdeclaration : n.child? .declaration = some declaration) :
    n.ExportsDeclared declaration n.statementExports := by
  have hvalue : n.child? .value = none := by
    rw [child?, List.find?_eq_none]
    exact fun c hc => by simpa using (isExportList_eq_false_iff.mp (hparts c hc)).1
  have hexports : n.statementExports =
      if n.hasToken "default" then
        [⟨(declaration.textOf? .name).getD "default", .default, n.row + 1, none⟩]
      else declaration.declaredNames.map (⟨·, .named, n.row + 1, none⟩) := by
    rw [statementExports, exportMarks_eq hparts]
    dsimp only
    rw [defaultName, hdeclaration, hvalue]
    cases h : declaration.textOf? .name <;> simp [h, line]
  rw [hexports]
  refine ⟨fun h => if_pos h, fun h => if_neg (Bool.eq_false_iff.mp h), fun h => ?_⟩
  have hnames (names : List String) :
      (names.map (⟨·, .named, n.row + 1, none⟩)).map Export.name = names := by
    rw [List.map_map]
    exact List.map_id names
  rw [if_neg (Bool.eq_false_iff.mp h), hnames]
  exact declaration.declares.eq_iff

/-- The exports of a node that is an export statement. -/
def exports? (n : Node) : Option (List Export) :=
  if n.kind = .exportStatement then some n.statementExports else none

theorem exports?_eq_some_iff {es : List Export} :
    n.exports? = some es ↔ n.kind = .exportStatement ∧ n.statementExports = es := by
  unfold exports?
  split <;> simp_all

theorem isSome_exports? : n.exports?.isSome = true ↔ n.kind = .exportStatement := by
  unfold exports?
  split <;> simp_all

theorem flatMap_exported (xs : List (Option Node × Node)) :
    (xs.flatMap fun x => x.2.exported) = (xs.filterMap fun x => x.2.exports?).flatten := by
  induction xs with
  | nil => rfl
  | cons x xs ih =>
    have hx : x.2.exported = x.2.exports?.getD [] := by
      unfold exported exports?
      split <;> simp_all
    rw [List.flatMap_cons, ih, hx]
    cases h : x.2.exports? <;> simp [h]

end Statements

end Node

namespace Node

open Dependency

/-- The exports of a tree are those of its export statements, in source order. Each that has a
declaration exports its names, all of them just if its targets bind plainly, and a file is orphaned
just if nothing is exported and no other file imports it. -/
theorem exports_declared (root : Node) (hparts : ∀ n ∈ root.subtree, n.ExportParts)
    (path : String) :
    let facts := Facts.ofTree path root
    (∃ groups, root.Lists (fun p m => root.Reached Node.isOpen p ∧ m.kind = .exportStatement)
        (fun m es => ∀ declaration, m.child? .declaration = some declaration →
          m.ExportsDeclared declaration es) groups ∧ facts.exports = groups.flatten) ∧
      ∀ (files : List (String × Facts)) (s : Settings), (files.map Prod.fst).Nodup →
        (path, facts) ∈ files →
          (path ∈ (Graph.build files s).summary.orphaned ↔ ¬Excluded s path ∧ facts.exports = [] ∧
            ∀ other, other ≠ path → ¬(Graph.build files s).Imports other path) := by
  intro facts
  refine ⟨?_, fun files s h hfile => Graph.mem_orphaned_build h hfile⟩
  have hmet : root.Lists (fun p _ => root.Reached Node.isOpen p)
      (fun m x => x.2 = m ∧ m ∈ root.subtree) (root.met Node.isOpen none) :=
    (Node.lists_met root none).imp fun p m x hm hx => ⟨hx, Node.mem_subtree_of_at? hm⟩
  refine ⟨_, hmet.filterMap (fun x => x.2.exports?) ?_ ?_, ?_⟩
  · rintro p m ⟨parent, x⟩ - ⟨rfl, -⟩
    exact Node.isSome_exports?
  · rintro m ⟨parent, x⟩ es ⟨rfl, hx⟩ hes declaration hdeclaration
    obtain ⟨hkind, rfl⟩ := Node.exports?_eq_some_iff.mp hes
    have hmem : declaration ∈ x.children ∧ declaration.role = some .declaration :=
      ⟨List.mem_of_find?_eq_some hdeclaration, by simpa using List.find?_some hdeclaration⟩
    exact exportsDeclared_statementExports (hparts x hx hkind ⟨declaration, hmem⟩) hdeclaration
  · change (Facts.ofTree path root).exports = _
    rw [Facts.ofTree_eq]
    exact Node.flatMap_exported _

theorem exports_declared_mixed :
    let text := "export const \x7b a \x7d = b, c = 1;\nexport default function d() \x7b\x7d"
    let facts := Facts.ofTree "a.ts" (Program.read .typeScript text).root
    facts.exports = [⟨"c", .named, 1, none⟩, ⟨"d", .default, 2, none⟩] ∧
      "a.ts" ∉ (Graph.build [("a.ts", facts)] .default).summary.orphaned := by
  intro text facts
  have hexports : facts.exports = [⟨"c", .named, 1, none⟩, ⟨"d", .default, 2, none⟩] := by
    decide +kernel
  refine ⟨hexports, fun horphaned => ?_⟩
  have horphaned_iff := (exports_declared (Program.read .typeScript text).root
    (Program.exportParts _ _) "a.ts").2 [("a.ts", facts)] .default
    (by decide) (List.mem_singleton_self _)
  have hnone : facts.exports = [] := (horphaned_iff.mp horphaned).2.1
  rw [hexports] at hnone
  exact absurd hnone (List.cons_ne_nil _ _)

theorem not_forall_exports_bindings :
    ¬ ∀ root : Node, (∀ n ∈ root.subtree, n.ExportParts) → ∀ path : String,
      ∀ n ∈ root.subtree, n.kind = .exportStatement →
        ∀ declaration, n.child? .declaration = some declaration →
          (∀ name ∈ declaration.bindings, ∃ e ∈ (Facts.ofTree path root).exports,
            e.name = name ∧ e.line = n.line) ∧
          (declaration.bindings ≠ [] → path ∉
            (Graph.build [(path, Facts.ofTree path root)] .default).summary.orphaned) := by
  intro hall
  have hnode : ∃ n ∈ (Program.read .typeScript "export const \x7b a \x7d = b;").root.subtree,
      n.kind = .exportStatement ∧ ∃ declaration ∈ n.child? .declaration,
        declaration.bindings = ["a"] := by decide +kernel
  obtain ⟨n, hn, hkind, declaration, hdeclaration, hbindings⟩ := hnode
  have hread :=
    hall _ (Program.exportParts .typeScript _) "a.ts" n hn hkind declaration hdeclaration
  have hbound : declaration.bindings ≠ [] := by
    rw [hbindings]
    exact List.cons_ne_nil _ _
  have horphaned := hread.2 hbound
  revert horphaned
  decide +kernel

end Node

end CodeAtlas
