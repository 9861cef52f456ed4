import CodeAtlas.Session
import CodeAtlas.Source.Memory
import Mathlib.Data.List.Induction
import Mathlib.Data.List.Sort
import Mathlib.Data.String.Basic

/-! What a session keeps, by the history of what it was asked for: for every key the text that was
there first since everything was dropped, however often the files have changed since, and the graph
of that. A history has the last event first. -/

namespace CodeAtlas

inductive Event where
  /-- A path was asked for where the source has a text, or none. -/
  | asked (path : String) (text : Option String)
  | cleared
  deriving DecidableEq

namespace Event

def isAsked : Event → Bool
  | asked .. => true
  | cleared => false

def textAt? (key : String) : Event → Option String
  | asked path text => if FilePath.key path = key then text else none
  | cleared => none

end Event

/-- The first text that was there under a key since everything was dropped. -/
def firstText? (key : String) (history : List Event) : Option String :=
  (history.takeWhile Event.isAsked).reverse.findSome? (Event.textAt? key)

/-- The paths whose key had no text yet when they were asked for. -/
def pathsRead : List Event → List String
  | [] => []
  | .cleared :: history => pathsRead history
  | .asked path _ :: history =>
    if firstText? (FilePath.key path) history = none then path :: pathsRead history
    else pathsRead history

inductive Request where
  | path (path : String)
  | project (paths : List String)
  | directory (directory : String)
  | clear

def Source.ask (source : Source) (path : String) : Event := .asked path (source.read path)

/-- The paths that a request asks for. -/
def Request.paths (o : Source.ScanOptions) (source : Source) : Request → List String
  | path p => [p]
  | project paths => paths
  | directory d => source.scan d o
  | clear => []

/-- What happens with a request, the first event first. -/
def Request.events (o : Source.ScanOptions) (source : Source) : Request → List Event
  | clear => [.cleared]
  | r => (r.paths o source).map source.ask

theorem Request.events_of_ne_clear {o : Source.ScanOptions} {source : Source} {r : Request}
    (h : r ≠ .clear) : r.events o source = (r.paths o source).map source.ask := by
  cases r with
  | clear => exact absurd rfl h
  | path | project | directory => rfl

/-- The history of requests, each with the source as it was then. -/
def history (c : Config) (requests : List (Source × Request)) : List Event :=
  (requests.flatMap fun r => r.2.events c.scan r.1).reverse

section History

variable {key path : String} {text : Option String} {past : List Event}

theorem firstText?_asked : firstText? key (.asked path text :: past) =
    (firstText? key past).or (Event.textAt? key (.asked path text)) := by
  rw [firstText?, List.takeWhile_cons_of_pos rfl, List.reverse_cons, List.findSome?_append,
    List.findSome?_singleton, firstText?]

theorem firstText?_asks (source : Source) (paths : List String) :
    firstText? key ((paths.map source.ask).reverse ++ past) =
      (firstText? key past).or ((paths.map source.ask).findSome? (Event.textAt? key)) := by
  induction paths generalizing past with
  | nil =>
    rw [List.map_nil, List.findSome?_nil, Option.or_none, List.reverse_nil, List.nil_append]
  | cons p paths ih =>
    rw [List.map_cons, List.reverse_cons, List.append_assoc, List.singleton_append, ih, Source.ask,
      firstText?_asked, List.findSome?_cons, Option.or_assoc]
    cases Event.textAt? key (.asked p (source.read p)) <;> rfl

end History

namespace Session

variable {c : Config} {s t : Session} {past : List Event} {source : Source} {path key : String}

def handle (s : Session) (source : Source) : Request → Session
  | .path path => (s.analyzePath source path).1
  | .project paths => (s.analyzeProject source paths).1
  | .directory directory => (s.analyzeDirectory source directory).1
  | .clear => s.clear

def serve (c : Config) (requests : List (Source × Request)) : Session :=
  requests.foldl (fun s r => s.handle r.1 r.2) (.new c)

theorem mem_keep {f g : KeptFile} {kept : List KeptFile} :
    g ∈ keep f kept ↔ g = f ∨ g ∈ kept := by
  induction kept with
  | nil => simp [keep]
  | cons k kept ih =>
    rw [keep]
    split
    · rw [List.mem_cons]
    · rw [List.mem_cons, ih, List.mem_cons]
      tauto

theorem find?_keep {f : KeptFile} {kept : List KeptFile}
    (h : ∀ g ∈ kept, g.key ≠ f.key) : (keep f kept).find? (·.key == key) =
      if f.key = key then some f else kept.find? (·.key == key) := by
  induction kept with
  | nil => by_cases hkey : f.key = key <;> simp [keep, hkey]
  | cons k kept ih =>
    rw [List.forall_mem_cons] at h
    rw [keep]
    split
    · by_cases hkey : f.key = key <;> simp [List.find?_cons, hkey]
    · by_cases hk : k.key = key
      · have hf : f.key ≠ key := fun hf => h.1 (hk.trans hf.symm)
        simp [hk, hf]
      · simp [hk, ih h.2]

theorem sorted_keep {f : KeptFile} {kept : List KeptFile}
    (h : ∀ g ∈ kept, g.key ≠ f.key) (hsorted : kept.Pairwise fun f g => f.key < g.key) :
    (keep f kept).Pairwise fun f g => f.key < g.key := by
  induction kept with
  | nil => exact List.pairwise_singleton _ f
  | cons k kept ih =>
    rw [List.forall_mem_cons] at h
    obtain ⟨hk, hrest⟩ := List.pairwise_cons.mp hsorted
    rw [keep]
    split
    · rename_i hlt
      refine List.pairwise_cons.mpr ⟨fun g hg => ?_, hsorted⟩
      rcases List.mem_cons.mp hg with rfl | hg
      · exact hlt
      · exact hlt.trans (hk g hg)
    · rename_i hnot
      have hlt : k.key < f.key := lt_of_le_of_ne (not_lt.mp hnot) h.1
      refine List.pairwise_cons.mpr ⟨fun g hg => ?_, ih h.2 hrest⟩
      rcases mem_keep.mp hg with rfl | hg
      · exact hlt
      · exact hk g hg

/-- A session keeps what its history says. -/
structure Reflects (s : Session) (c : Config) (past : List Event) : Prop where
  config : s.config = c
  sorted : s.kept.Pairwise fun f g => f.key < g.key
  find : ∀ key, s.find? key =
    (firstText? key past).map fun text => ⟨key, text, .of c key text⟩
  reads : s.reads = pathsRead past

theorem ensure_cases (s : Session) (source : Source) (path : String) :
    (∃ f, s.find? (FilePath.key path) = some f ∧ s.ensure source path = (s, .known)) ∨
    (s.find? (FilePath.key path) = none ∧ source.read path = none ∧
      s.ensure source path = ({ s with reads := path :: s.reads }, .unreadable)) ∨
    ∃ text, s.find? (FilePath.key path) = none ∧ source.read path = some text ∧
      s.ensure source path =
        ({ s with
          kept := keep ⟨FilePath.key path, text, .of s.config (FilePath.key path) text⟩ s.kept
          reads := path :: s.reads }, .analysed) := by
  rw [ensure]
  cases hfind : s.find? (FilePath.key path) with
  | some f => exact .inl ⟨f, rfl, if_pos rfl⟩
  | none =>
    cases hread : source.read path with
    | none => exact .inr (.inl ⟨rfl, rfl, by simp⟩)
    | some text => exact .inr (.inr ⟨text, rfl, rfl, by simp⟩)

theorem Reflects.find_eq_none_iff (h : s.Reflects c past) :
    s.find? key = none ↔ firstText? key past = none := by
  rw [h.find, Option.map_eq_none_iff]

theorem Reflects.ensure (h : s.Reflects c past) (source : Source) (path : String) :
    (s.ensure source path).1.Reflects c (source.ask path :: past) := by
  rcases ensure_cases s source path with
    ⟨f, hfind, heq⟩ | ⟨hfind, hread, heq⟩ | ⟨text, hfind, hread, heq⟩ <;> rw [heq]
  · -- The earlier text goes before whatever the source has now.
    rw [h.find] at hfind
    obtain ⟨text, htext, -⟩ := Option.map_eq_some_iff.mp hfind
    refine ⟨h.config, h.sorted, fun key => ?_, ?_⟩
    · rw [h.find, Source.ask, firstText?_asked, Event.textAt?]
      split
      · rename_i hkey
        rw [← hkey, htext, Option.some_or]
      · rw [Option.or_none]
    · rw [h.reads, Source.ask, pathsRead, htext, if_neg (Option.some_ne_none _)]
  · -- It was read in vain.
    have htext := h.find_eq_none_iff.mp hfind
    refine ⟨h.config, h.sorted, fun key => ?_, ?_⟩
    · rw [Source.ask, firstText?_asked, Event.textAt?, hread, ite_self, Option.or_none]
      exact h.find key
    · rw [Source.ask, pathsRead, htext, if_pos rfl, h.reads]
  · -- The first text under the key.
    have htext := h.find_eq_none_iff.mp hfind
    have habsent : ∀ f ∈ s.kept, f.key ≠ FilePath.key path := by simpa [find?] using hfind
    refine ⟨h.config, sorted_keep habsent h.sorted, fun key => ?_, ?_⟩
    · let f : KeptFile := ⟨FilePath.key path, text, .of s.config (FilePath.key path) text⟩
      have hkeep : (keep f s.kept).find? (·.key == key) =
          if FilePath.key path = key then some f else s.find? key := find?_keep habsent
      rw [Source.ask, firstText?_asked, Event.textAt?, hread, find?, hkeep]
      split
      · rename_i hkey
        rw [← hkey, htext, Option.none_or, Option.map_some, ← h.config]
      · rw [Option.or_none, h.find]
    · rw [Source.ask, pathsRead, htext, if_pos rfl, h.reads]

def ensureAll (source : Source) (s : Session) (paths : List String) : Session :=
  paths.foldl (fun s path => (s.ensure source path).1) s

theorem Reflects.ensureAll (h : s.Reflects c past) (source : Source) (paths : List String) :
    (s.ensureAll source paths).Reflects c ((paths.map source.ask).reverse ++ past) := by
  induction paths generalizing s past with
  | nil => exact h
  | cons path paths ih =>
    rw [List.map_cons, List.reverse_cons, List.append_assoc, List.singleton_append]
    exact ih (h.ensure source path)

theorem session_add (b : Batch) :
    (b.add source path).session = (b.session.ensure source path).1 := by
  rw [Batch.add]
  split <;> simp [*]

theorem session_foldl_add (b : Batch) (paths : List String) :
    (paths.foldl (Batch.add source) b).session = b.session.ensureAll source paths := by
  induction paths generalizing b with
  | nil => rfl
  | cons path paths ih =>
    rw [List.foldl_cons, ih, session_add]
    rfl

theorem ensure_congr {source' : Source}
    (h : s.find? (FilePath.key path) = none → source.read path = source'.read path) :
    s.ensure source path = s.ensure source' path := by
  rw [ensure, ensure]
  cases hfind : s.find? (FilePath.key path) with
  | some f => rfl
  | none => rw [h hfind]

/-- Of a source nothing counts but what it has where nothing is kept. -/
theorem Reflects.ensureAll_congr (h : s.Reflects c past) {source' : Source} {paths : List String}
    (hread : ∀ p ∈ paths, s.find? (FilePath.key p) = none → source.read p = source'.read p) :
    s.ensureAll source paths = s.ensureAll source' paths := by
  induction paths generalizing s past with
  | nil => rfl
  | cons path paths ih =>
    rw [List.forall_mem_cons] at hread
    have hnext := h.ensure source path
    have hstep : s.ensure source path = s.ensure source' path := ensure_congr hread.1
    have hrest : (s.ensure source path).1.ensureAll source paths =
        (s.ensure source path).1.ensureAll source' paths := by
      refine ih hnext fun p hp hfind => hread.2 p hp ?_
      rw [hnext.find_eq_none_iff, Source.ask, firstText?_asked, Option.or_eq_none_iff] at hfind
      exact h.find_eq_none_iff.mpr hfind.1
    refine hrest.trans ?_
    rw [hstep]
    rfl

/-- The graph of a session is that of the files that it keeps. -/
def Current (s : Session) : Prop := s.rebuild = s

theorem Current.graph_eq (h : s.Current) :
    s.graph = .build (s.kept.map fun f => (f.key, f.analysis.facts)) s.config.dependencies :=
  (congrArg graph h).symm

theorem current_new (c : Config) : (new c).Current := rfl

theorem Current.rebuild_ensure (h : s.Current) (hout : (s.ensure source path).2 ≠ .analysed) :
    (s.ensure source path).1.rebuild = (s.ensure source path).1 := by
  rcases ensure_cases s source path with ⟨f, -, heq⟩ | ⟨-, -, heq⟩ | ⟨text, -, -, heq⟩
  · rw [heq]
    exact h
  · rw [heq]
    exact congrArg (fun t : Session => { t with reads := path :: s.reads }) h
  · exact absurd (congrArg Prod.snd heq) hout

theorem Current.handle_eq (h : s.Current) (source : Source) {r : Request} (hr : r ≠ .clear) :
    s.handle source r = (s.ensureAll source (r.paths s.config.scan source)).rebuild := by
  cases r with
  | path p =>
    have hens : s.ensureAll source [p] = (s.ensure source p).1 := rfl
    rw [Session.handle, analyzePath, Request.paths, hens]
    by_cases hout : (s.ensure source p).2 = .analysed
    · simp only [hout, if_true]
    · simp only [hout, if_false, h.rebuild_ensure hout]
  | project paths => rw [Session.handle, analyzeProject, session_foldl_add, Request.paths]
  | directory d =>
    rw [Session.handle, analyzeDirectory, analyzeProject, session_foldl_add, Request.paths]
  | clear => exact absurd rfl hr

theorem Current.handle (h : s.Current) (source : Source) (r : Request) :
    (s.handle source r).Current := by
  by_cases hr : r = .clear
  · subst hr
    rfl
  · rw [h.handle_eq source hr]
    rfl

theorem Reflects.rebuild (h : s.Reflects c past) : s.rebuild.Reflects c past :=
  ⟨h.config, h.sorted, h.find, h.reads⟩

theorem Reflects.clear (h : s.Reflects c past) : s.clear.Reflects c (.cleared :: past) :=
  ⟨h.config, List.Pairwise.nil, fun _ => rfl, h.reads⟩

theorem Reflects.handle (h : s.Reflects c past) (hs : s.Current) (source : Source) (r : Request) :
    (s.handle source r).Reflects c ((r.events c.scan source).reverse ++ past) := by
  by_cases hr : r = .clear
  · subst hr
    exact h.clear
  · rw [hs.handle_eq source hr, Request.events_of_ne_clear hr, h.config]
    exact (h.ensureAll source _).rebuild

theorem serve_concat (requests : List (Source × Request)) (source : Source) (r : Request) :
    serve c (requests ++ [(source, r)]) = (serve c requests).handle source r :=
  List.foldl_append

theorem history_concat (requests : List (Source × Request)) (source : Source) (r : Request) :
    history c (requests ++ [(source, r)]) =
      (r.events c.scan source).reverse ++ history c requests := by
  rw [history, List.flatMap_append, List.reverse_append, List.flatMap_singleton, ← history]

theorem serve_invariant (c : Config) (requests : List (Source × Request)) :
    (serve c requests).Reflects c (history c requests) ∧ (serve c requests).Current := by
  induction requests using List.reverseRecOn with
  | nil => exact ⟨⟨rfl, List.Pairwise.nil, fun _ => rfl, rfl⟩, current_new c⟩
  | append_singleton requests r ih =>
    obtain ⟨hreflects, hcurrent⟩ := ih
    rw [serve_concat, history_concat]
    exact ⟨hreflects.handle hcurrent r.1 r.2, hcurrent.handle r.1 r.2⟩

theorem mem_kept_iff (hsorted : s.kept.Pairwise fun f g => f.key < g.key) {f : KeptFile} :
    f ∈ s.kept ↔ s.find? f.key = some f := by
  have hkeys : (s.kept.map KeptFile.key).Nodup :=
    List.pairwise_map.mpr (hsorted.imp fun hlt => hlt.ne)
  refine ⟨fun hf => ?_, List.mem_of_find?_eq_some⟩
  cases hfind : s.find? f.key with
  | none => simpa using List.find?_eq_none.mp hfind f hf
  | some g =>
    have hkey : g.key = f.key := by simpa using List.find?_some hfind
    rw [List.inj_on_of_nodup_map hkeys (List.mem_of_find?_eq_some hfind) hf hkey]

/-- What a session keeps depends on nothing but the first texts. -/
theorem Reflects.kept_eq {past' : List Event} (h : s.Reflects c past) (h' : t.Reflects c past')
    (htext : ∀ key, firstText? key past = firstText? key past') : s.kept = t.kept := by
  have hirrefl : Std.Irrefl fun f g : KeptFile => f.key < g.key := ⟨fun f => lt_irrefl f.key⟩
  refine h.sorted.eq_of_mem_iff h'.sorted fun f => ?_
  rw [mem_kept_iff h.sorted, mem_kept_iff h'.sorted, h.find, h'.find, htext]

theorem findSome?_readable (source : Source) (paths : List String) :
    (((paths.filter fun p => (source.read p).isSome).map source.ask).findSome?
      (Event.textAt? key)) = (paths.map source.ask).findSome? (Event.textAt? key) := by
  induction paths with
  | nil => rfl
  | cons p paths ih =>
    cases hread : source.read p with
    | some text =>
      rw [List.filter_cons_of_pos (by rw [hread]; rfl), List.map_cons, List.map_cons,
        List.findSome?_cons, List.findSome?_cons, ih]
    | none =>
      have hnone : Event.textAt? key (source.ask p) = none := by
        rw [Source.ask, Event.textAt?, hread, ite_self]
      rw [List.filter_cons_of_neg (by rw [hread]; decide), List.map_cons,
        List.findSome?_cons_of_isNone (by rw [hnone]; rfl), ih]

/-- Paths that cannot be read could as well not be asked for. -/
theorem handle_readable (h : s.Reflects c past) (hs : s.Current) (source : Source) {r : Request}
    (hr : r ≠ .clear) :
    let readable := (r.paths c.scan source).filter fun p => (source.read p).isSome
    let t := s.handle source (.project readable)
    (s.handle source r).kept = t.kept ∧ (s.handle source r).graph = t.graph := by
  intro readable t
  have ht : t = (s.ensureAll source readable).rebuild := by
    refine hs.handle_eq source ?_
    intro heq
    cases heq
  have hall := h.ensureAll source (r.paths c.scan source)
  have hreadable := h.ensureAll source readable
  have hkept : (s.ensureAll source (r.paths c.scan source)).kept =
      (s.ensureAll source readable).kept := by
    refine hall.kept_eq hreadable fun key => ?_
    rw [firstText?_asks, firstText?_asks, findSome?_readable]
  rw [ht, hs.handle_eq source hr, h.config]
  refine ⟨hkept, ?_⟩
  simp only [Session.rebuild, hkept, hall.config, hreadable.config]

/-- What a source has under the keys that are kept does not matter. -/
theorem handle_congr (h : s.Reflects c past) (hs : s.Current) {source source' : Source}
    {r : Request} (hpaths : r.paths c.scan source = r.paths c.scan source')
    (hread : ∀ p ∈ r.paths c.scan source, s.find? (FilePath.key p) = none →
      source.read p = source'.read p) : s.handle source r = s.handle source' r := by
  by_cases hr : r = .clear
  · rw [hr]
    rfl
  · rw [hs.handle_eq source hr, hs.handle_eq source' hr, h.config, ← hpaths,
      h.ensureAll_congr hread]

/-- After any requests, whatever the source was at each of them, the graph of a session is that of
the files it keeps; it keeps under every key the text that was there first since everything was
dropped, with the analysis of that text; it has read a path exactly when it was asked for it and
kept nothing under its key, and what the source has under the keys that are kept does not matter to
it; and paths that cannot be read change nothing. -/
theorem serve_coherent (c : Config) (requests : List (Source × Request)) :
    let s := serve c requests
    let past := history c requests
    s.graph = .build (s.kept.map fun f => (f.key, f.analysis.facts)) c.dependencies ∧
    (∀ key, s.find? key = (firstText? key past).map fun text => ⟨key, text, .of c key text⟩) ∧
    (∀ f, f ∈ s.kept ↔ s.find? f.key = some f) ∧
    (s.kept.Pairwise fun f g => f.key < g.key) ∧
    s.reads = pathsRead past ∧
    (∀ source source' r, r.paths c.scan source = r.paths c.scan source' →
      (∀ p ∈ r.paths c.scan source, s.find? (FilePath.key p) = none →
        source.read p = source'.read p) → s.handle source r = s.handle source' r) ∧
    (∀ source, s.handle source (.project []) = s) ∧
    ∀ source r, r ≠ .clear →
      let readable := (r.paths c.scan source).filter fun p => (source.read p).isSome
      let t := s.handle source (.project readable)
      (s.handle source r).kept = t.kept ∧ (s.handle source r).graph = t.graph := by
  intro s past
  obtain ⟨hreflects, hcurrent⟩ := serve_invariant c requests
  have hgraph : s.graph =
      .build (s.kept.map fun f => (f.key, f.analysis.facts)) s.config.dependencies :=
    (congrArg graph hcurrent).symm
  rw [hreflects.config] at hgraph
  exact ⟨hgraph, hreflects.find, fun f => mem_kept_iff hreflects.sorted, hreflects.sorted,
    hreflects.reads, fun source source' r => handle_congr hreflects hcurrent,
    fun source => hcurrent,
    fun source r hr => handle_readable hreflects hcurrent source hr⟩

def before : Source.Memory := .ofFiles [("./a.ts", "export const a = 1")]

def after : Source.Memory := before.write "./a.ts" "export const b = 2"

/-- A file that is written to between two requests, and everything dropped afterwards. -/
def rewritten : List (Source × Request) :=
  [(before.source, .path "./a.ts"), (after.source, .project ["a.ts", "b.ts"]),
    (after.source, .clear), (after.source, .directory ".")]

theorem serve_coherent_rewritten :
    let s := serve .default rewritten
    ((serve .default (rewritten.take 2)).find? "a.ts").map KeptFile.text =
      some "export const a = 1" ∧
    (s.find? "a.ts").map KeptFile.text = some "export const b = 2" ∧
    s.reads = ["./a.ts", "b.ts", "./a.ts"] ∧
    s.handle before.source (.path "a.ts") = s.handle after.source (.path "a.ts") ∧
    (s.handle after.source (.path "b.ts")).graph = s.graph := by
  intro s
  obtain ⟨-, hold, -⟩ := serve_coherent .default (rewritten.take 2)
  obtain ⟨-, hfind, -, -, hreads, hkept, hnone, hreadable⟩ := serve_coherent .default rewritten
  have hfirst : firstText? "a.ts" (history .default (rewritten.take 2)) =
      some "export const a = 1" := by decide +kernel
  have hsecond : firstText? "a.ts" (history .default rewritten) =
      some "export const b = 2" := by decide +kernel
  have hasked : pathsRead (history .default rewritten) = ["./a.ts", "b.ts", "./a.ts"] := by
    decide +kernel
  have hunreadable : (["b.ts"].filter fun p => (after.source.read p).isSome) = [] := by
    decide +kernel
  have hgraph := (hreadable after.source (.path "b.ts") (by intro heq; cases heq)).2
  rw [Request.paths, hunreadable, hnone] at hgraph
  have hknown : s.find? (FilePath.key "a.ts") ≠ none := by
    have hkey : FilePath.key "a.ts" = "a.ts" := by decide +kernel
    rw [hkey, hfind, hsecond]
    exact Option.some_ne_none _
  refine ⟨?_, ?_, hreads.trans hasked, hkept _ _ _ rfl fun p hp hnew => ?_, hgraph⟩
  · rw [hold, hfirst]
    rfl
  · rw [hfind, hsecond]
    rfl
  · obtain rfl := List.mem_singleton.mp hp
    exact absurd hnew hknown

end Session

end CodeAtlas
