import CodeAtlas.Proofs.Session.Batches

/-! Sessions over a source that stays as it is and has one text for all spellings of a path. What
they keep in the end is decided by the files that were asked for in all, in whatever order and
however often; and the same request again changes nothing and is answered alike. -/

namespace CodeAtlas

def Source.Uniform (source : Source) : Prop :=
  ∀ p q, FilePath.key p = FilePath.key q → source.read p = source.read q

/-- What comes back from a request. -/
inductive Reply where
  | analysis (found : Option FileAnalysis)
  | report (report : ProjectReport)
  | done

/-- The keys of all paths that are asked for. -/
def keysAsked (o : Source.ScanOptions) (source : Source) (requests : List Request) : List String :=
  (requests.flatMap (·.paths o source)).map FilePath.key

section Asking

variable {source : Source} {key text : String} {past : List Event} {paths paths' : List String}
  {o : Source.ScanOptions} {c : Config}

theorem history_of_ne_clear {requests : List Request} (h : ∀ r ∈ requests, r ≠ .clear) :
    history c (requests.map (source, ·)) =
      ((requests.flatMap (·.paths c.scan source)).map source.ask).reverse := by
  rw [history, List.flatMap_map, List.map_flatMap]
  refine congrArg List.reverse (List.flatMap_congr fun r hr => ?_)
  exact Request.events_of_ne_clear (h r hr)

theorem firstText?_asks_only (source : Source) (paths : List String) :
    firstText? key (paths.map source.ask).reverse =
      (paths.map source.ask).findSome? (Event.textAt? key) := by
  rw [← List.append_nil (paths.map source.ask).reverse, firstText?_asks]
  rfl

theorem textAt?_ask_eq_some_iff {path : String} : Event.textAt? key (source.ask path) = some text ↔
    FilePath.key path = key ∧ source.read path = some text := by
  rw [Source.ask, Event.textAt?]
  split <;> simp_all

theorem Source.Uniform.findSome?_ask_eq_some_iff (h : source.Uniform) :
    (paths.map source.ask).findSome? (Event.textAt? key) = some text ↔
      ∃ path ∈ paths, FilePath.key path = key ∧ source.read path = some text := by
  have hfound : ∀ text', (paths.map source.ask).findSome? (Event.textAt? key) = some text' →
      ∃ path ∈ paths, FilePath.key path = key ∧ source.read path = some text' := by
    intro text' hsome
    obtain ⟨e, he, htext⟩ := List.exists_of_findSome?_eq_some hsome
    obtain ⟨path, hpath, rfl⟩ := List.mem_map.mp he
    exact ⟨path, hpath, textAt?_ask_eq_some_iff.mp htext⟩
  constructor
  · exact hfound text
  · rintro ⟨path, hpath, hkey, hread⟩
    cases hsome : (paths.map source.ask).findSome? (Event.textAt? key) with
    | none =>
      have hnone := List.findSome?_eq_none_iff.mp hsome _ (List.mem_map_of_mem hpath)
      rw [textAt?_ask_eq_some_iff.mpr ⟨hkey, hread⟩] at hnone
      cases hnone
    | some text' =>
      obtain ⟨path', -, hkey', hread'⟩ := hfound text' hsome
      rw [← hread', ← hread, h path' path (hkey'.trans hkey.symm)]

theorem Source.Uniform.findSome?_ask_congr (h : source.Uniform)
    (hkeys : ∀ key, key ∈ paths.map FilePath.key ↔ key ∈ paths'.map FilePath.key) :
    (paths.map source.ask).findSome? (Event.textAt? key) =
      (paths'.map source.ask).findSome? (Event.textAt? key) := by
  have hsome : ∀ {ps ps' : List String} {text : String},
      (∀ key, key ∈ ps.map FilePath.key → key ∈ ps'.map FilePath.key) →
      (∃ p ∈ ps, FilePath.key p = key ∧ source.read p = some text) →
        ∃ p ∈ ps', FilePath.key p = key ∧ source.read p = some text := by
    rintro ps ps' text hsub ⟨p, hp, rfl, hread⟩
    obtain ⟨q, hq, hkey⟩ := List.mem_map.mp (hsub _ (List.mem_map_of_mem hp))
    exact ⟨q, hq, hkey, (h q p hkey).trans hread⟩
  ext text
  rw [h.findSome?_ask_eq_some_iff, h.findSome?_ask_eq_some_iff]
  exact ⟨hsome fun key => (hkeys key).mp, hsome fun key => (hkeys key).mpr⟩

/-- Where everything that can be read has a text already, paths are only read in vain. -/
theorem pathsRead_asks (h : ∀ path ∈ paths, firstText? (FilePath.key path) past = none →
    source.read path = none) :
    ∃ missed, pathsRead ((paths.map source.ask).reverse ++ past) = missed ++ pathsRead past ∧
      ∀ path ∈ missed, source.read path = none := by
  induction paths generalizing past with
  | nil => exact ⟨[], rfl, fun _ hp => absurd hp List.not_mem_nil⟩
  | cons path paths ih =>
    rw [List.forall_mem_cons] at h
    have hlater : ∀ p ∈ paths, firstText? (FilePath.key p) (source.ask path :: past) = none →
        source.read p = none := by
      intro p hp hnone
      rw [Source.ask, firstText?_asked, Option.or_eq_none_iff] at hnone
      exact h.2 p hp hnone.1
    obtain ⟨missed, hmissed, hread⟩ := ih hlater
    rw [List.map_cons, List.reverse_cons, List.append_assoc, List.singleton_append, hmissed,
      Source.ask, pathsRead]
    split
    · rename_i hnew
      refine ⟨missed ++ [path], by rw [List.append_assoc, List.singleton_append], fun p hp => ?_⟩
      rcases List.mem_append.mp hp with hp | hp
      · exact hread p hp
      · obtain rfl := List.mem_singleton.mp hp
        exact h.1 hnew
    · exact ⟨missed, rfl, hread⟩

end Asking

namespace Session

variable {c : Config} {s t : Session} {source : Source} {past : List Event} {r : Request}
  {path : String} {paths : List String}

def reply (s : Session) (source : Source) : Request → Reply
  | .path path => .analysis (s.analyzePath source path).2
  | .project paths => .report (s.analyzeProject source paths).2
  | .directory directory => .report (s.analyzeDirectory source directory).2
  | .clear => .done

theorem Current.graph_congr (hs : s.Current) (ht : t.Current) (hconfig : s.config = t.config)
    (hkept : s.kept = t.kept) : s.graph = t.graph := by
  rw [hs.graph_eq, ht.graph_eq, hconfig, hkept]

theorem find?_congr (hkept : s.kept = t.kept) : s.find? = t.find? := by
  funext key
  rw [find?, find?, hkept]

theorem dependencyResult?_congr (hkept : s.kept = t.kept) (hgraph : s.graph = t.graph) :
    s.dependencyResult? = t.dependencyResult? := by
  funext path
  rw [dependencyResult?, dependencyResult?, find?_congr hkept, hgraph]

theorem ensure_uniform (h : source.Uniform) {other : String} (hread : source.read other = none) :
    (s.ensure source path).1.find? (FilePath.key other) = s.find? (FilePath.key other) := by
  by_cases hkey : FilePath.key path = FilePath.key other
  · rw [find?_ensure, h path other hkey, hread, Option.map_none, ite_self, Option.or_none]
  · exact find?_ensure_of_ne source hkey

theorem ensureAll_uniform (h : source.Uniform) {other : String} (hread : source.read other = none) :
    (s.ensureAll source paths).find? (FilePath.key other) = s.find? (FilePath.key other) := by
  induction paths generalizing s with
  | nil => rfl
  | cons path paths ih => rw [ensureAll_cons, ih, ensure_uniform h hread]

/-- Whether nothing is kept of a path and it cannot be read. -/
def inVain (s : Session) (source : Source) (path : String) : Bool :=
  (s.find? (FilePath.key path)).isNone && (source.read path).isNone

theorem beq_unreadable : ((s.ensure source path).2 == .unreadable) = s.inVain source path := by
  rw [Bool.eq_iff_iff, beq_iff_eq, unreadable_iff, inVain]
  simp

theorem inVain_ensureAll (h : source.Uniform) :
    (s.ensureAll source paths).inVain source = s.inVain source := by
  funext other
  rw [inVain, inVain]
  -- What can be read is never in vain, and nothing comes to be kept of the rest.
  cases hread : source.read other with
  | none => rw [ensureAll_uniform h hread]
  | some text => simp

/-- With one text for all spellings, what goes before does not matter to how asking goes. -/
theorem asks_uniform (h : source.Uniform) (vain : Bool) :
    s.asks source vain paths = paths.filter fun path => s.inVain source path == vain := by
  induction paths generalizing s with
  | nil => rfl
  | cons path paths ih =>
    have hstep : (s.ensure source path).1.inVain source = s.inVain source := by
      change (s.ensureAll source [path]).inVain source = s.inVain source
      exact inVain_ensureAll h
    rw [asks, ih, hstep, beq_unreadable, List.filter_cons]
    simp only [beq_iff_eq]

theorem asks_ensureAll (h : source.Uniform) (vain : Bool) :
    (s.ensureAll source paths).asks source vain paths = s.asks source vain paths := by
  rw [asks_uniform h, asks_uniform h, inVain_ensureAll h]

theorem Reflects.kept_handle_handle (h : s.Reflects c past) (hs : s.Current) (hr : r ≠ .clear) :
    ((s.handle source r).handle source r).kept = (s.handle source r).kept := by
  have hfirst := h.handle hs source r
  refine (hfirst.handle (hs.handle source r) source r).kept_eq hfirst fun key => ?_
  -- The second time all first texts have been there.
  rw [Request.events_of_ne_clear hr, firstText?_asks, firstText?_asks, Option.or_assoc,
    Option.or_self]

theorem Reflects.reads_handle_handle (h : s.Reflects c past) (hs : s.Current) (hr : r ≠ .clear) :
    ∃ missed, ((s.handle source r).handle source r).reads =
      missed ++ (s.handle source r).reads ∧ ∀ path ∈ missed, source.read path = none := by
  have hfirst := h.handle hs source r
  have hsecond := hfirst.handle (hs.handle source r) source r
  rw [hsecond.reads, hfirst.reads, Request.events_of_ne_clear hr]
  refine pathsRead_asks fun path hpath hnone => ?_
  rw [firstText?_asks, Option.or_eq_none_iff, List.findSome?_eq_none_iff] at hnone
  have hask := hnone.2 _ (List.mem_map_of_mem hpath)
  rwa [Source.ask, Event.textAt?, if_pos rfl] at hask

theorem Reflects.graph_handle_handle (h : s.Reflects c past) (hs : s.Current) (hr : r ≠ .clear) :
    ((s.handle source r).handle source r).graph = (s.handle source r).graph := by
  have hfirst := h.handle hs source r
  have hsecond := hfirst.handle (hs.handle source r) source r
  exact ((hs.handle source r).handle source r).graph_congr (hs.handle source r)
    (hsecond.config.trans hfirst.config.symm) (h.kept_handle_handle hs hr)

theorem analyzeProject_snd : (s.analyzeProject source paths).2 =
    let t := (s.analyzeProject source paths).1
    let keys := ((s.asks source false paths).map FilePath.key).eraseDups
    .of t.graph (keys.filterMap fun key => (t.find? key).map KeptFile.analysis)
      ((s.asks source true paths).map FilePath.key) := by
  rw [analyzeProject_eq]

/-- A report that leaves all as it was is the same as the one before. -/
theorem analyzeProject_again (h : source.Uniform) :
    let t := (s.analyzeProject source paths).1
    (t.analyzeProject source paths).1.kept = t.kept →
      (t.analyzeProject source paths).1.graph = t.graph →
        (t.analyzeProject source paths).2 = (s.analyzeProject source paths).2 := by
  intro t hkept hgraph
  have hasks : ∀ vain, t.asks source vain paths = s.asks source vain paths := by
    intro vain
    have ht : t = (s.ensureAll source paths).rebuild := congrArg Prod.fst (analyzeProject_eq ..)
    calc
      t.asks source vain paths = (s.ensureAll source paths).asks source vain paths := by
        rw [ht, asks_uniform h, asks_uniform h]
        rfl
      _ = s.asks source vain paths := asks_ensureAll h vain
  rw [analyzeProject_snd, analyzeProject_snd]
  dsimp only
  rw [hgraph, find?_congr hkept, hasks, hasks]

theorem Reflects.reply_handle (h : s.Reflects c past) (hs : s.Current) (hu : source.Uniform)
    (hr : r ≠ .clear) : (s.handle source r).reply source r = s.reply source r := by
  have hkept : ((s.handle source r).handle source r).kept = (s.handle source r).kept :=
    h.kept_handle_handle hs hr
  have hgraph : ((s.handle source r).handle source r).graph = (s.handle source r).graph :=
    h.graph_handle_handle hs hr
  cases r with
  | path p =>
    have hfound : ((s.handle source (.path p)).analyzePath source p).2 =
        (s.analyzePath source p).2 :=
      congrArg (fun find => (find (FilePath.key p)).map KeptFile.analysis) (find?_congr hkept)
    exact congrArg Reply.analysis hfound
  | project paths => exact congrArg Reply.report (analyzeProject_again hu hkept hgraph)
  | directory d =>
    have hconfig : (s.handle source (.directory d)).config = s.config :=
      (h.handle hs source _).config.trans h.config.symm
    have hscan : (s.handle source (.directory d)).analyzeDirectory source d =
        (s.handle source (.directory d)).analyzeProject source (source.scan d s.config.scan) := by
      rw [analyzeDirectory, hconfig]
    change ((s.handle source (.directory d)).analyzeDirectory source d).1.kept = _ at hkept
    change ((s.handle source (.directory d)).analyzeDirectory source d).1.graph = _ at hgraph
    change Reply.report ((s.handle source (.directory d)).analyzeDirectory source d).2 = _
    rw [hscan] at hkept hgraph ⊢
    exact congrArg Reply.report (analyzeProject_again hu hkept hgraph)
  | clear => exact absurd rfl hr

/-- Sessions that are asked over a source that stays as it is for the same files, however they are
put together into requests, end up with the same files kept, with their texts and analyses, with
the same graph, and say the same of the imports from and to any path. A request that is made again
at any time changes none of this, is answered as before, and reads no path that can be read. -/
theorem serve_confluent (c : Config) (source : Source) (hu : source.Uniform) :
    (∀ requests requests' : List Request, (∀ r ∈ requests ++ requests', r ≠ .clear) →
      (∀ key, key ∈ keysAsked c.scan source requests ↔ key ∈ keysAsked c.scan source requests') →
      let s := serve c (requests.map (source, ·))
      let t := serve c (requests'.map (source, ·))
      s.kept = t.kept ∧ s.graph = t.graph ∧ s.dependencyResult? = t.dependencyResult?) ∧
    ∀ (past : List (Source × Request)) (r : Request), r ≠ .clear →
      let s := serve c past
      let once := s.handle source r
      let twice := once.handle source r
      twice.kept = once.kept ∧ twice.graph = once.graph ∧
        once.reply source r = s.reply source r ∧
        ∃ missed, twice.reads = missed ++ once.reads ∧
          ∀ path ∈ missed, source.read path = none := by
  constructor
  · intro requests requests' hclear hkeys s t
    rw [List.forall_mem_append] at hclear
    obtain ⟨hs, hscurrent⟩ := serve_invariant c (requests.map (source, ·))
    obtain ⟨ht, htcurrent⟩ := serve_invariant c (requests'.map (source, ·))
    have hkept : s.kept = t.kept := by
      refine hs.kept_eq ht fun key => ?_
      rw [history_of_ne_clear hclear.1, history_of_ne_clear hclear.2, firstText?_asks_only,
        firstText?_asks_only, hu.findSome?_ask_congr hkeys]
    have hgraph : s.graph = t.graph :=
      hscurrent.graph_congr htcurrent (hs.config.trans ht.config.symm) hkept
    exact ⟨hkept, hgraph, dependencyResult?_congr hkept hgraph⟩
  · intro past r hr s once twice
    obtain ⟨hs, hcurrent⟩ := serve_invariant c past
    exact ⟨hs.kept_handle_handle hcurrent hr, hs.graph_handle_handle hcurrent hr,
      hs.reply_handle hcurrent hu hr, hs.reads_handle_handle hcurrent hr⟩

/-- A source that has its texts by key. -/
def keyed (texts : List (String × String)) : Source :=
  ⟨fun path => List.lookup (FilePath.key path) texts, fun _ _ => []⟩

theorem uniform_keyed (texts : List (String × String)) : (keyed texts).Uniform :=
  fun _ _ hkey => congrArg (List.lookup · texts) hkey

def together : List Request := [.path "a.ts", .project ["./a.ts", "b.ts", "c.ts"]]

def oneByOne : List Request := [.path "c.ts", .path "x/../b.ts", .path "c.ts", .path "a.ts"]

theorem serve_confluent_oneByOne :
    let source := keyed [("a.ts", "import './b'"), ("b.ts", "import './a'")]
    let s := serve .default (together.map (source, ·))
    let t := serve .default (oneByOne.map (source, ·))
    let r := Request.project ["b.ts", "c.ts"]
    source.Uniform ∧ (∀ r ∈ together ++ oneByOne, r ≠ .clear) ∧
      (∀ key, key ∈ keysAsked Config.default.scan source together ↔
        key ∈ keysAsked Config.default.scan source oneByOne) ∧
      s.graph = t.graph ∧ s.dependencyResult? "a.ts" = t.dependencyResult? "a.ts" ∧
      r ≠ .clear ∧ (t.handle source r).reply source r = t.reply source r := by
  intro source s t r
  have hu : source.Uniform := uniform_keyed _
  have hclear : ∀ r ∈ together ++ oneByOne, r ≠ .clear := by
    intro r hr heq
    subst heq
    simp [together, oneByOne] at hr
  have htogether : keysAsked Config.default.scan source together =
      ["a.ts", "a.ts", "b.ts", "c.ts"] := by decide +kernel
  have honeByOne : keysAsked Config.default.scan source oneByOne =
      ["c.ts", "b.ts", "c.ts", "a.ts"] := by decide +kernel
  have hkeys : ∀ key, key ∈ keysAsked Config.default.scan source together ↔
      key ∈ keysAsked Config.default.scan source oneByOne := by
    intro key
    rw [htogether, honeByOne]
    simp only [List.mem_cons, List.not_mem_nil, or_false]
    tauto
  have hr : r ≠ .clear := Request.noConfusion
  obtain ⟨hsame, hagain⟩ := serve_confluent .default source hu
  obtain ⟨-, hgraph, hresult⟩ := hsame together oneByOne hclear hkeys
  exact ⟨hu, hclear, hkeys, hgraph, congrFun hresult "a.ts", hr,
    (hagain (oneByOne.map (source, ·)) r hr).2.2.1⟩

end Session

end CodeAtlas
