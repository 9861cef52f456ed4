import CodeAtlas.Extraction
import CodeAtlas.Proofs.Grammar.ImportStatements
import CodeAtlas.Proofs.Responsibility.Evidence

/-! What says that a file reaches for data: import statements that name a data client themselves,
and calls along a data object. The imports of a file are more than these statements, so a client may
be imported without being evidence. All that is asked of a tree is that an import statement names
one source. -/

namespace CodeAtlas

namespace Node

/-- Whether a node is a statement that imports a data client, with the literal among its own
parts. -/
def ImportsClient (h : Heuristics) (n : Node) : Prop :=
  n.kind = .importStatement ∧
    ∃ c ∈ n.children, c.kind = .string ∧ h.isDataAccessImport (unquote c.text) = true

/-- Whether a node is a call along a data object. -/
def CallsData (h : Heuristics) (n : Node) : Prop :=
  n.kind = .callExpression ∧
    ∃ callee, n.child? .callee = some callee ∧ h.isDataAccessCall callee.asCallee = true

/-- Whether an import of a file is what a node says. -/
def Tells (file : String) (n : Node) (i : Import) : Prop :=
  (n.kind = .importStatement ∧ n.statementImport? file = some i) ∨
    (n.kind = .callExpression ∧ ∃ parent, n.callImport? file parent = some i)

section Statement

variable {file : String} {n : Node} {i : Import}

theorem eq_of_isImported (h : n.NamesOneSource) {c c' : Node} (hc : c ∈ n.children)
    (hc' : c' ∈ n.children) (himported : c.isImported = true) (himported' : c'.isImported = true) :
    c = c' := by
  have hlength := h.count_le
  rw [List.countP_eq_length_filter] at hlength
  have hmem : c ∈ n.children.filter isImported := List.mem_filter.mpr ⟨hc, himported⟩
  have hmem' : c' ∈ n.children.filter isImported := List.mem_filter.mpr ⟨hc', himported'⟩
  cases hparts : n.children.filter isImported with
  | nil =>
    rw [hparts] at hmem
    exact absurd hmem List.not_mem_nil
  | cons part more =>
    cases more with
    | nil =>
      rw [hparts, List.mem_singleton] at hmem hmem'
      rw [hmem, hmem']
    | cons other more =>
      rw [hparts, List.length_cons, List.length_cons] at hlength
      omega

theorem isImported_of_string {c : Node} (h : c.kind = .string) : c.isImported = true := by
  rw [isImported, h]
  rfl

theorem isImported_of_clause {c : Node} (h : c.kind = .importRequireClause) :
    c.isImported = true := by
  rw [isImported, h]
  rfl

theorem child?_source_eq_some_iff (h : n.NamesOneSource) {c : Node} :
    n.child? .source = some c ↔ c ∈ n.children ∧ c.kind = .string := by
  have hfound {c : Node} (hfind : n.child? .source = some c) :
      c ∈ n.children ∧ c.kind = .string := by
    have hmem := List.mem_of_find?_eq_some hfind
    have hrole := List.find?_some (p := fun c : Node => c.role == some .source) hfind
    exact ⟨hmem, (h.source_iff c hmem).mpr (beq_iff_eq.mp hrole)⟩
  refine ⟨hfound, ?_⟩
  rintro ⟨hc, hkind⟩
  cases hfind : n.child? .source with
  | none =>
    have hnone := List.find?_eq_none.mp hfind c hc
    rw [(h.source_iff c hc).mp hkind, beq_self_eq_true] at hnone
    exact absurd rfl hnone
  | some c' =>
    obtain ⟨hc', hkind'⟩ := hfound hfind
    rw [eq_of_isImported h hc hc' (isImported_of_string hkind) (isImported_of_string hkind')]

theorem mem_importSources {c source : Node} (h : source ∈ c.importSources) :
    (c.kind = .string ∧ source = c) ∨ c.kind = .importRequireClause := by
  unfold importSources at h
  split at h
  next hkind => exact .inl ⟨hkind, List.mem_singleton.mp h⟩
  next hkind => exact .inr hkind
  · exact absurd h List.not_mem_nil

/-- An import statement that is read as an import either has the literal among its own parts, or
has no literal there. -/
theorem statementImport?_eq_some (h : n.NamesOneSource)
    (hi : n.statementImport? file = some i) : i.line = n.line ∧
      ((i.kind = .static ∧
          ∃ c ∈ n.children, c.kind = .string ∧ unquote c.text = i.specifier) ∨
        (i.kind = .require ∧ ∀ c ∈ n.children, c.kind ≠ .string)) := by
  unfold statementImport? at hi
  obtain ⟨source, hsource, hi⟩ := Option.bind_eq_some_iff.mp hi
  dsimp only at hi
  split at hi
  · cases hi
  cases hi
  refine ⟨rfl, ?_⟩
  obtain ⟨c, hc, hmem⟩ := List.mem_flatMap.mp (List.mem_of_getLast? hsource)
  rcases mem_importSources hmem with ⟨hkind, rfl⟩ | hkind
  · have hclause : n.children.any (·.kind == .importRequireClause) = false := by
      rw [List.any_eq_false]
      intro c' hc' hbeq
      have hkind' : c'.kind = .importRequireClause := beq_iff_eq.mp hbeq
      rw [eq_of_isImported h hc' hc (isImported_of_clause hkind') (isImported_of_string hkind),
        hkind] at hkind'
      exact absurd hkind' (by decide)
    left
    rw [hclause]
    exact ⟨rfl, source, hc, hkind, rfl⟩
  · have hclause : n.children.any (·.kind == .importRequireClause) = true :=
      List.any_eq_true.mpr ⟨c, hc, beq_iff_eq.mpr hkind⟩
    right
    rw [hclause]
    refine ⟨rfl, fun c' hc' hkind' => ?_⟩
    rw [eq_of_isImported h hc' hc (isImported_of_string hkind') (isImported_of_clause hkind),
      hkind] at hkind'
    exact absurd hkind' (by decide)

theorem loads?_ne_static (callee : Node) : callee.loads? ≠ some .static := by
  unfold loads?
  split
  · split <;> simp
  · simp
  · simp

theorem kind_of_callImport? {parent : Option Node} (hi : n.callImport? file parent = some i) :
    i.kind ≠ .static := by
  unfold callImport? at hi
  obtain ⟨callee, -, hi⟩ := Option.bind_eq_some_iff.mp hi
  obtain ⟨kind, hkind, hi⟩ := Option.bind_eq_some_iff.mp hi
  obtain ⟨arguments, -, hi⟩ := Option.bind_eq_some_iff.mp hi
  obtain ⟨source, -, hi⟩ := Option.bind_eq_some_iff.mp hi
  cases hi
  rintro rfl
  exact loads?_ne_static callee hkind

end Statement

end Node

theorem Facts.tells_of_mem {file : String} {root : Node} {i : Import}
    (hi : i ∈ (ofTree file root).imports) : ∃ n ∈ root.subtree, n.Tells file i := by
  revert i
  unfold ofTree
  apply Node.walk_induction (P := fun facts : Facts =>
    ∀ {i : Import}, i ∈ facts.imports → ∃ n ∈ root.subtree, n.Tells file i)
  · intro i hi
    exact absurd hi List.not_mem_nil
  · intro n hn parent facts ih i hi
    unfold visit at hi
    split at hi
    next hkind =>
      rcases List.mem_append.mp hi with hi | hi
      · exact ih hi
      · exact ⟨n, hn, .inl ⟨hkind, Option.mem_toList.mp hi⟩⟩
    next hkind =>
      rcases List.mem_append.mp hi with hi | hi
      · exact ih hi
      · exact ⟨n, hn, .inr ⟨hkind, parent, Option.mem_toList.mp hi⟩⟩
    · exact ih hi
    · exact ih hi

theorem Shape.of?_eq_importing_iff {n : Node} {source : String} :
    of? n = some (.importing source) ↔ n.kind = .importStatement ∧
      ∃ c, n.child? .source = some c ∧ unquote c.text = source := by
  constructor
  · intro h
    unfold of? at h
    split at h <;> simp_all [ofFunction, plainProperty, Node.textOf?, Option.bind_eq_some_iff]
  · rintro ⟨hkind, c, hc, rfl⟩
    unfold of? Node.textOf?
    rw [hkind, hc]
    rfl

theorem Shape.of?_eq_call_iff {n : Node} {call : Call} :
    of? n = some (.call call) ↔ n.kind = .callExpression ∧
      ∃ callee, n.child? .callee = some callee ∧ callee.asCallee = call := by
  constructor
  · intro h
    unfold of? at h
    split at h <;> simp_all [ofFunction, plainProperty, Node.textOf?, Option.bind_eq_some_iff]
  · rintro ⟨hkind, callee, hcallee, rfl⟩
    unfold of?
    rw [hkind, hcallee]
    rfl

theorem Heuristics.mem_evidence_dataAccess {h : Heuristics} {byName : Bool} {shape : Shape}
    {e : Evidence} : (e ∈ h.evidence byName shape ∧ e.category = .dataAccess) ↔
      (∃ source, shape = .importing source ∧ h.isDataAccessImport source = true ∧
        e = .dataClient source) ∨
      ∃ call, shape = .call call ∧ h.isDataAccessCall call = true ∧ e = .dataCall call.path := by
  cases shape with
  | markup tag => grind [evidence, Evidence.category]
  | call call => grind [evidence, callEvidence, Evidence.category]
  | function name count =>
    grind [evidence, functionEvidence, Evidence.category]
  | property name => grind [evidence, Evidence.category]
  | binding name => grind [evidence, bindingEvidence, Evidence.category]
  | importing source => grind [evidence, Evidence.category]

section Evidence

variable {h : Heuristics} {byName : Bool} {n : Node}

theorem Node.importsClient_iff (hparts : n.ImportParts) :
    n.ImportsClient h ↔ ∃ source, Shape.of? n = some (.importing source) ∧
      h.isDataAccessImport source = true := by
  unfold ImportsClient
  constructor
  · rintro ⟨hkind, c, hc, hstring, hclient⟩
    have hsource := (child?_source_eq_some_iff (hparts hkind)).mpr ⟨hc, hstring⟩
    exact ⟨_, Shape.of?_eq_importing_iff.mpr ⟨hkind, c, hsource, rfl⟩, hclient⟩
  · rintro ⟨source, hshape, hclient⟩
    obtain ⟨hkind, c, hsource, rfl⟩ := Shape.of?_eq_importing_iff.mp hshape
    obtain ⟨hc, hstring⟩ := (child?_source_eq_some_iff (hparts hkind)).mp hsource
    exact ⟨hkind, c, hc, hstring, hclient⟩

theorem Node.callsData_iff : n.CallsData h ↔
    ∃ call, Shape.of? n = some (.call call) ∧ h.isDataAccessCall call = true := by
  unfold CallsData
  constructor
  · rintro ⟨hkind, callee, hcallee, hdata⟩
    exact ⟨_, Shape.of?_eq_call_iff.mpr ⟨hkind, callee, hcallee, rfl⟩, hdata⟩
  · rintro ⟨call, hshape, hdata⟩
    obtain ⟨hkind, callee, hcallee, rfl⟩ := Shape.of?_eq_call_iff.mp hshape
    exact ⟨hkind, callee, hcallee, hdata⟩

/-- A node shows data access if it imports a client or calls along a data object. -/
theorem Indicator.exists_dataAccess_iff (hparts : n.ImportParts) :
    (∃ e ∈ ofNode h byName n, e.category = .dataAccess) ↔ n.ImportsClient h ∨ n.CallsData h := by
  rw [Node.importsClient_iff hparts, Node.callsData_iff]
  constructor
  · rintro ⟨e, he, hcategory⟩
    obtain ⟨shape, hshape, evidence, hevidence, rfl⟩ := mem_ofNode.mp he
    rcases Heuristics.mem_evidence_dataAccess.mp ⟨hevidence, hcategory⟩ with
      ⟨source, rfl, hclient, -⟩ | ⟨call, rfl, hdata, -⟩
    · exact .inl ⟨source, hshape, hclient⟩
    · exact .inr ⟨call, hshape, hdata⟩
  · have hshown {shape : Shape} {evidence : Evidence} (hshape : Shape.of? n = some shape)
        (hevidence : evidence ∈ h.evidence byName shape ∧ evidence.category = .dataAccess) :
        ∃ e ∈ ofNode h byName n, e.category = .dataAccess :=
      ⟨_, mem_ofNode.mpr ⟨shape, hshape, evidence, hevidence.1, rfl⟩, hevidence.2⟩
    rintro (⟨source, hshape, hclient⟩ | ⟨call, hshape, hdata⟩)
    · apply hshown hshape
      exact Heuristics.mem_evidence_dataAccess.mpr (.inl ⟨source, rfl, hclient, rfl⟩)
    · apply hshown hshape
      exact Heuristics.mem_evidence_dataAccess.mpr (.inr ⟨call, rfl, hdata, rfl⟩)

end Evidence

theorem Node.Tells.importsClient_iff {file : String} {h : Heuristics} {n : Node} {i : Import}
    (htells : n.Tells file i) (hparts : n.ImportParts)
    (hclient : h.isDataAccessImport i.specifier = true) :
    n.ImportsClient h ↔ i.kind = .static := by
  rcases htells with ⟨hkind, hi⟩ | ⟨hkind, parent, hi⟩
  · obtain ⟨-, ⟨hstatic, c, hc, hstring, htext⟩ | ⟨hrequire, hnone⟩⟩ :=
      statementImport?_eq_some (hparts hkind) hi
    · rw [← htext] at hclient
      exact ⟨fun _ => hstatic, fun _ => ⟨hkind, c, hc, hstring, hclient⟩⟩
    · constructor
      · rintro ⟨-, c, hc, hstring, -⟩
        exact absurd hstring (hnone c hc)
      · rw [hrequire]
        exact ImportKind.noConfusion
  · constructor
    · rintro ⟨hstatement, -⟩
      rw [hkind] at hstatement
      exact Kind.noConfusion hstatement
    · exact fun hstatic => absurd hstatic (kind_of_callImport? hi)

theorem Node.Tells.exists_dataClient {file : String} {h : Heuristics} {byName : Bool} {n : Node}
    {i : Import} (htells : n.Tells file i) (hparts : n.ImportParts)
    (hclient : h.isDataAccessImport i.specifier = true) (hstatic : i.kind = .static) :
    ∃ e ∈ Indicator.ofNode h byName n, e.evidence = .dataClient i.specifier ∧ e.line = i.line := by
  rcases htells with ⟨hkind, hi⟩ | ⟨hkind, parent, hi⟩
  · obtain ⟨hline, ⟨-, c, hc, hstring, htext⟩ | ⟨hrequire, -⟩⟩ :=
      statementImport?_eq_some (hparts hkind) hi
    · have hsource := (child?_source_eq_some_iff (hparts hkind)).mpr ⟨hc, hstring⟩
      have hshape := Shape.of?_eq_importing_iff.mpr ⟨hkind, c, hsource, htext⟩
      have hevidence : .dataClient i.specifier ∈ h.evidence byName (.importing i.specifier) :=
        (Heuristics.mem_evidence_dataAccess.mpr (.inl ⟨i.specifier, rfl, hclient, rfl⟩)).1
      exact ⟨_, Indicator.mem_ofNode.mpr ⟨_, hshape, _, hevidence, rfl⟩, rfl, hline.symm⟩
    · rw [hrequire] at hstatic
      exact ImportKind.noConfusion hstatic
  · exact absurd hstatic (kind_of_callImport? hi)

namespace Node

/-- A client that is imported is evidence of data access by itself if and only if it is imported
by a statement that names it, and data access shows only in such statements and in calls. -/
theorem dataAccess_iff (root : Node) (hparts : ∀ n ∈ root.subtree, n.ImportParts) (file : String)
    (h : Heuristics) (byName : Bool) :
    (∀ i ∈ (Facts.ofTree file root).imports, h.isDataAccessImport i.specifier = true →
      ∃ n ∈ root.subtree, n.Tells file i ∧ (n.ImportsClient h ↔ i.kind = .static)) ∧
    (∀ i ∈ (Facts.ofTree file root).imports, h.isDataAccessImport i.specifier = true →
      i.kind = .static → ∃ e ∈ Indicator.ofTree h byName root,
        e.evidence = .dataClient i.specifier ∧ e.line = i.line) ∧
    ((∃ e ∈ Indicator.ofTree h byName root, e.category = .dataAccess) ↔
      ∃ n ∈ root.subtree, n.ImportsClient h ∨ n.CallsData h) := by
  refine ⟨?_, ?_, ?_⟩
  · intro i hi hclient
    obtain ⟨n, hn, htells⟩ := Facts.tells_of_mem hi
    exact ⟨n, hn, htells, htells.importsClient_iff (hparts n hn) hclient⟩
  · intro i hi hclient hstatic
    obtain ⟨n, hn, htells⟩ := Facts.tells_of_mem hi
    obtain ⟨e, he, hshown⟩ := htells.exists_dataClient (hparts n hn) hclient hstatic
    rw [Indicator.ofTree_eq]
    exact ⟨e, List.mem_flatMap.mpr ⟨n, hn, he⟩, hshown⟩
  · rw [Indicator.ofTree_eq]
    constructor
    · rintro ⟨e, he, hcategory⟩
      obtain ⟨n, hn, hmem⟩ := List.mem_flatMap.mp he
      exact ⟨n, hn, (Indicator.exists_dataAccess_iff (hparts n hn)).mp ⟨e, hmem, hcategory⟩⟩
    · rintro ⟨n, hn, hshows⟩
      obtain ⟨e, hmem, hcategory⟩ := (Indicator.exists_dataAccess_iff (hparts n hn)).mpr hshows
      exact ⟨e, List.mem_flatMap.mpr ⟨n, hn, hmem⟩, hcategory⟩

theorem dataAccess_iff_static :
    let root := (Program.read .typeScript "import { Schema } from 'mongoose';").root
    (∀ n ∈ root.subtree, n.ImportParts) ∧ ∃ e ∈ Indicator.ofTree .default false root,
      e.evidence = .dataClient "mongoose" ∧ e.line = 1 := by
  intro root
  have hparts : ∀ n ∈ root.subtree, n.ImportParts := Program.importParts _ _
  have hi : ⟨"a.ts", "mongoose", [.named "Schema" "Schema"], .static, 1, none⟩ ∈
      (Facts.ofTree "a.ts" root).imports := by decide +kernel
  have hclient : Heuristics.default.isDataAccessImport "mongoose" = true := by decide +kernel
  exact ⟨hparts, (dataAccess_iff root hparts "a.ts" .default false).2.1 _ hi hclient rfl⟩

theorem not_forall_dataAccess_of_client :
    ¬ ∀ root : Node, (∀ n ∈ root.subtree, n.ImportParts) →
      ∀ (file : String) (h : Heuristics) (byName : Bool),
        (∃ i ∈ (Facts.ofTree file root).imports, h.isDataAccessImport i.specifier = true) →
          ∃ e ∈ Indicator.ofTree h byName root, e.category = .dataAccess := by
  intro hall
  have hclient : ∃ i ∈ (Facts.ofTree "a.ts"
      (Program.read .typeScript "import m = require('mongoose');").root).imports,
      Heuristics.default.isDataAccessImport i.specifier = true := by decide +kernel
  have hshown := hall (Program.read .typeScript "import m = require('mongoose');").root
    (Program.importParts _ _) "a.ts" .default true hclient
  revert hshown
  decide +kernel

end Node

end CodeAtlas
