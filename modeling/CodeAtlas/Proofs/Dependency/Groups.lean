import CodeAtlas.Dependency.View
import CodeAtlas.Proofs.Text.LowerCase
import Mathlib.Data.List.Find

/-! The group of a file is told by its directories. A directory stands between slashes in a path
exactly if it is one of the segments in front of the last one, so the name of the file itself does
not matter, and the nodes of a drawing keep their groups and colors when a file is renamed. -/

namespace CodeAtlas

namespace Dependency

namespace Group

section Segments

variable {segs : List (List Char)} {cs d name : List Char}

theorem cons_intercalate (hne : segs ≠ []) :
    '/' :: ['/'].intercalate segs = segs.flatMap ('/' :: ·) := by
  induction segs with
  | nil => exact absurd rfl hne
  | cons seg segs ih =>
    cases segs with
    | nil => simp
    | cons next segs =>
      rw [List.intercalate_cons_cons, List.append_assoc, List.singleton_append,
        ih (List.cons_ne_nil next segs)]
      rfl

theorem mem_dropLast_of_between (hd : '/' ∉ d) (h : '/' :: (d ++ ['/']) <:+: '/' :: cs) :
    d ∈ (cs.splitOn '/').dropLast := by
  have hback (back : List Char) : d ∈ (d :: back.splitOn '/').dropLast := by
    rw [List.dropLast_cons_of_ne_nil (List.splitOn_ne_nil '/' back)]
    exact List.mem_cons_self
  obtain ⟨front, back, h⟩ := h
  cases front with
  | nil =>
    have hcs : cs = d ++ '/' :: back := by simpa using (List.cons.inj h).2.symm
    rw [hcs, List.splitOn_append_cons_self, List.splitOn_eq_singleton hd]
    exact hback back
  | cons c front =>
    have hcs : cs = front ++ '/' :: (d ++ '/' :: back) := by simpa using (List.cons.inj h).2.symm
    rw [hcs, List.splitOn_append_cons_self, List.splitOn_append_cons_self,
      List.splitOn_eq_singleton hd, List.singleton_append,
      List.dropLast_append_of_ne_nil (List.cons_ne_nil _ _)]
    exact List.mem_append_right _ (hback back)

theorem between_of_mem_dropLast (h : d ∈ (cs.splitOn '/').dropLast) :
    '/' :: (d ++ ['/']) <:+: '/' :: cs := by
  have hne := List.splitOn_ne_nil '/' cs
  obtain ⟨front, back, hsplit⟩ := List.append_of_mem h
  obtain ⟨last, hlast⟩ : ∃ last, cs.splitOn '/' = front ++ d :: (back ++ [last]) := by
    refine ⟨(cs.splitOn '/').getLast hne, ?_⟩
    calc cs.splitOn '/'
      _ = (cs.splitOn '/').dropLast ++ [(cs.splitOn '/').getLast hne] :=
        (List.dropLast_concat_getLast hne).symm
      _ = front ++ d :: (back ++ [(cs.splitOn '/').getLast hne]) := by
        rw [hsplit, List.append_assoc, List.cons_append]
  have hcs := cons_intercalate hne
  -- Every segment has a slash in front of it, also the one behind the directory.
  have hbehind : back ++ [last] ≠ [] := by simp
  rw [List.intercalate_splitOn, hlast, List.flatMap_append, List.flatMap_cons,
    ← cons_intercalate hbehind] at hcs
  exact ⟨front.flatMap ('/' :: ·), ['/'].intercalate (back ++ [last]), by rw [hcs]; simp⟩

/-- A text without slashes stands between slashes exactly if it is a segment, but not the last. -/
theorem between_iff_mem_dropLast (hd : '/' ∉ d) :
    '/' :: (d ++ ['/']) <:+: '/' :: cs ↔ d ∈ (cs.splitOn '/').dropLast :=
  ⟨mem_dropLast_of_between hd, between_of_mem_dropLast⟩

theorem dropLast_splitOn_append (cs : List Char) (hname : '/' ∉ name) :
    ((cs ++ '/' :: name).splitOn '/').dropLast = cs.splitOn '/' := by
  rw [List.splitOn_append_cons_self, List.splitOn_eq_singleton hname, List.dropLast_concat]

end Segments

/-- A path with slashes only, and none at its front. -/
def plain (path : List Char) : List Char :=
  (path.map fun c => if c = '\\' then '/' else c).dropWhile (· = '/')

/-- The segments of a path in front of the last one. -/
def folders (path : String) : List String :=
  ((plain path.toList).splitOn '/').dropLast.map String.ofList

theorem mem_folders {path d : String} :
    d ∈ folders path ↔ d.toList ∈ ((plain path.toList).splitOn '/').dropLast := by
  rw [folders, List.mem_map]
  constructor
  · rintro ⟨seg, hseg, rfl⟩
    rwa [String.toList_ofList]
  · exact fun h => ⟨d.toList, h, String.ofList_toList⟩

theorem slashed_eq (path : List Char) : slashed path = '/' :: plain path := rfl

/-- The group of a path is that of the first directory of the table which is a folder of it. -/
theorem ofPath_eq_find? (path : String) : ofPath path =
    ((directories.find? fun entry => entry.1 ∈ folders path).map Prod.snd).getD other := by
  have hslash : ∀ entry ∈ directories, '/' ∉ entry.1.toList := by decide
  have hfolder : ∀ entry ∈ directories, Text.contains ("/" ++ entry.1 ++ "/").toList
      (slashed path.toList) = decide (entry.1 ∈ folders path) := by
    intro entry hentry
    have hpart : ("/" ++ entry.1 ++ "/").toList = '/' :: (entry.1.toList ++ ['/']) := by
      rw [String.toList_append, String.toList_append, List.append_assoc]
      rfl
    rw [Bool.eq_iff_iff, Text.contains_iff_infix, hpart, slashed_eq, decide_eq_true_eq,
      mem_folders]
    exact between_iff_mem_dropLast (hslash entry hentry)
  rw [ofPath, List.find?_congr hfolder]

def isSeparator (c : Char) : Bool := c = '/' || c = '\\'

section Names

variable {front name : String} {xs ys : List Char}

theorem plain_append (xs ys : List Char) : plain (xs ++ ys) =
    if plain xs = [] then plain ys
    else plain xs ++ ys.map fun c => if c = '\\' then '/' else c := by
  rw [plain, plain, plain, List.map_append, List.dropWhile_append]
  simp only [List.isEmpty_iff]

theorem map_of_no_separator (h : ∀ c ∈ xs, isSeparator c = false) :
    (xs.map fun c => if c = '\\' then '/' else c) = xs := by
  refine (List.map_congr_left fun c hc => if_neg ?_).trans (List.map_id xs)
  rintro rfl
  exact absurd (h _ hc) (by decide)

theorem slash_not_mem (h : ∀ c ∈ xs, isSeparator c = false) : '/' ∉ xs :=
  fun hslash => absurd (h _ hslash) (by decide)

theorem plain_of_no_separator (h : ∀ c ∈ xs, isSeparator c = false) : plain xs = xs := by
  rw [plain, map_of_no_separator h]
  cases xs with
  | nil => rfl
  | cons c cs =>
    refine List.dropWhile_cons_of_neg fun hslash => ?_
    exact slash_not_mem h (of_decide_eq_true hslash ▸ List.mem_cons_self)

/-- What is left of a text that ends in a separator ends in a slash, if anything is left. -/
theorem plain_eq_nil_or_concat (h : xs.getLast?.all isSeparator = true) :
    plain xs = [] ∨ ∃ ys, plain xs = ys ++ ['/'] := by
  rcases List.eq_nil_or_concat' xs with rfl | ⟨ys, c, rfl⟩
  · exact .inl rfl
  · have hc : (if c = '\\' then '/' else c) = '/' := by
      rw [List.getLast?_concat, Option.all_some, isSeparator, Bool.or_eq_true, decide_eq_true_eq,
        decide_eq_true_eq] at h
      split
      · rfl
      · next hback => exact h.resolve_right hback
    rw [plain_append, List.map_singleton, hc]
    split
    · exact .inl (by rw [plain, List.map_singleton, hc]; rfl)
    · exact .inr ⟨_, rfl⟩

/-- The folders of a file are those of the text in front of its name. -/
theorem folders_append (hfront : front.toList.getLast?.all isSeparator = true)
    (hname : ∀ c ∈ name.toList, isSeparator c = false) :
    folders (front ++ name) = folders front := by
  have hslash := slash_not_mem hname
  rw [folders, folders, String.toList_append, plain_append]
  rcases plain_eq_nil_or_concat hfront with hnil | ⟨ys, hys⟩
  · rw [if_pos hnil, hnil, plain_of_no_separator hname, List.splitOn_eq_singleton hslash]
    rfl
  · rw [if_neg (by simp [hys]), hys, map_of_no_separator hname, List.append_assoc,
      List.singleton_append, dropLast_splitOn_append ys hslash,
      dropLast_splitOn_append ys List.not_mem_nil]

theorem ofPath_append (hfront : front.toList.getLast?.all isSeparator = true)
    (hname : ∀ c ∈ name.toList, isSeparator c = false) : ofPath (front ++ name) = ofPath front := by
  rw [ofPath_eq_find?, folders_append hfront hname, ← ofPath_eq_find?]

end Names

end Group

/-- A node under a new path, if it has the old one. -/
def FileNode.rename (old new : String) (n : FileNode) : FileNode :=
  { n with path := if n.path = old then new else n.path }

theorem FileNode.group_rename {old new : String} (h : Group.ofPath new = Group.ofPath old)
    (n : FileNode) : (n.rename old new).group = n.group := by
  rw [group, group, rename]
  dsimp only
  split
  · rfl
  · split
    next hpath => rw [h, hpath]
    next => rfl

def Edge.rename (old new : String) (e : Edge) : Edge :=
  { e with
    source := if e.source = old then new else e.source
    target := if e.target = old then new else e.target }

/-- A graph in which a file has another path. -/
def Graph.rename (old new : String) (g : Graph) : Graph :=
  { g with nodes := g.nodes.map (·.rename old new), edges := g.edges.map (·.rename old new) }

namespace Group

/-- The group of a path is that of the first directory of the table which is a folder of it, and
there is a group for files in none of them. A file that is renamed stays in its group. In a graph
all nodes keep their groups and are drawn in their colors. -/
theorem ofPath_by_folders :
    (∀ path, ofPath path =
      ((directories.find? fun entry => entry.1 ∈ folders path).map Prod.snd).getD other) ∧
    other.label = "module" ∧
    ∀ front old new : String, front.toList.getLast?.all isSeparator = true →
      (∀ c ∈ old.toList, isSeparator c = false) → (∀ c ∈ new.toList, isSeparator c = false) →
      ofPath (front ++ new) = ofPath (front ++ old) ∧
      ∀ g : Graph, let renamed := FileNode.rename (front ++ old) (front ++ new)
        (g.rename (front ++ old) (front ++ new)).view.nodes.Perm
          (g.nodes.map fun n => ⟨(renamed n).path, (renamed n).label, n.group⟩) ∧
        ((g.rename (front ++ old) (front ++ new)).view.nodes.map Dot.nodeLine).Perm
          (g.nodes.map fun n =>
            "  " ++ Dot.quote (renamed n).path ++ " [label=" ++ Dot.quote (renamed n).label ++
              ", fillcolor=" ++ Dot.quote n.group.color ++ "];\n") := by
  refine ⟨ofPath_eq_find?, rfl, fun front old new hfront hold hnew => ?_⟩
  have hgroup : ofPath (front ++ new) = ofPath (front ++ old) := by
    rw [ofPath_append hfront hnew, ofPath_append hfront hold]
  refine ⟨hgroup, fun g => ?_⟩
  intro renamed
  have hnodes : (g.rename (front ++ old) (front ++ new)).view.nodes.Perm
      (g.nodes.map fun n => ⟨(renamed n).path, (renamed n).label, n.group⟩) := by
    refine (List.mergeSort_perm _ _).trans (.of_eq ?_)
    rw [Graph.rename, List.map_map]
    refine List.map_congr_left fun n _ => ?_
    exact congrArg _ (FileNode.group_rename hgroup n)
  refine ⟨hnodes, (hnodes.map Dot.nodeLine).trans (.of_eq ?_)⟩
  rw [List.map_map]
  rfl

/-- Of two folders that are in the table the one that comes first there counts, whether the file is
called like another one or not. -/
theorem ofPath_by_folders_mixed :
    "//src\\api/components//".toList.getLast?.all isSeparator = true ∧
    (∀ c ∈ "a.ts".toList, isSeparator c = false) ∧
    (∀ c ∈ "hooks".toList, isSeparator c = false) ∧
    ofPath "//src\\api/components//a.ts" = component ∧
    ofPath "//src\\api/components//hooks" = component ∧
    ofPath "src/mycomponents/types" = other ∧
    ((Graph.rename "//src\\api/components//a.ts" "//src\\api/components//hooks"
      ⟨[⟨"//src\\api/components//a.ts", false, [], []⟩], [], 10⟩).view.nodes).Perm
        [⟨"//src\\api/components//hooks", "hooks", component⟩] := by
  have hfront : "//src\\api/components//".toList.getLast?.all isSeparator = true := by decide
  have hold : ∀ c ∈ "a.ts".toList, isSeparator c = false := by simp [isSeparator]
  have hnew : ∀ c ∈ "hooks".toList, isSeparator c = false := by simp [isSeparator]
  obtain ⟨hfind, -, hrename⟩ := ofPath_by_folders
  obtain ⟨hsame, hgraph⟩ := hrename "//src\\api/components//" "a.ts" "hooks" hfront hold hnew
  have hgroup : ofPath "//src\\api/components//a.ts" = component := by
    rw [hfind]
    decide +kernel
  refine ⟨hfront, hold, hnew, hgroup, hsame.trans hgroup, ?_, ?_⟩
  · rw [hfind]
    decide +kernel
  · refine (hgraph ⟨[⟨"//src\\api/components//a.ts", false, [], []⟩], [], 10⟩).1.trans (.of_eq ?_)
    decide +kernel

end Group

end Dependency

end CodeAtlas
