import CodeAtlas.Proofs.Dependency.Files
import Mathlib.Data.List.Induction

/-! What a graph holds, read off the edits that it comes from. Every path that something was added
under has one node, the paths in the order in which they first came up. The node is that of the file
added last, or a package if none was. An edge counts the statements from the one path to the other
that came when both were there. -/

namespace CodeAtlas.Dependency

def Edit.path? : Edit → Option String
  | file path _ _ => some path
  | package name => some name
  | statement _ _ => none

def Edit.fileAt? (path : String) : Edit → Option FileNode
  | file p imports exports => if p = path then some ⟨path, false, imports, exports⟩ else none
  | package _ => none
  | statement _ _ => none

/-- The paths that something was added under, as often as it was. -/
def added (edits : List Edit) : List String := edits.filterMap Edit.path?

/-- The file that was added last under a path, or a package. -/
def nodeAt (edits : List Edit) (path : String) : FileNode :=
  (edits.reverse.findSome? (Edit.fileAt? path)).getD ⟨path, true, [], []⟩

def recordedFrom (known : List String) : List Edit → List (String × String)
  | [] => []
  | .file path _ _ :: es => recordedFrom (known ++ [path]) es
  | .package name :: es => recordedFrom (known ++ [name]) es
  | .statement a b :: es =>
    if a ∈ known ∧ b ∈ known then (a, b) :: recordedFrom known es else recordedFrom known es

/-- The statements whose ends had both been added when they came. -/
def recorded (edits : List Edit) : List (String × String) := recordedFrom [] edits

/-- An edge for every pair, which counts how often the pair is there. -/
def tally (pairs : List (String × String)) : List Edge :=
  pairs.eraseDups.map fun p => ⟨p.1, p.2, pairs.count p⟩

section Lists

variable {α : Type} [BEq α] [LawfulBEq α]

theorem eraseDups_concat (l : List α) (a : α) :
    (l ++ [a]).eraseDups = if a ∈ l then l.eraseDups else l.eraseDups ++ [a] := by
  rw [List.eraseDups_append, List.removeAll, List.filter_singleton]
  by_cases h : a ∈ l
  · simp [h]
  · simp [h, List.eraseDups_cons]

theorem nodup_eraseDups (l : List α) : l.eraseDups.Nodup := by
  induction l using List.reverseRecOn with
  | nil => simp
  | append_singleton l a ih =>
    rw [eraseDups_concat]
    split
    · exact ih
    · rename_i h
      have hmem : a ∉ l.eraseDups := mt List.mem_eraseDups.mp h
      exact ih.append (List.nodup_singleton a) (List.disjoint_singleton.mpr hmem)

theorem eraseDups_of_nodup {l : List α} (h : l.Nodup) : l.eraseDups = l := by
  induction l using List.reverseRecOn with
  | nil => rfl
  | append_singleton l a ih =>
    obtain ⟨hl, -, hdisjoint⟩ := List.nodup_append.mp h
    have ha : a ∉ l := fun ha => hdisjoint a ha a List.mem_cons_self rfl
    rw [eraseDups_concat, if_neg ha, ih hl]

theorem eraseDups_filter (chosen : α → Bool) (l : List α) :
    (l.filter chosen).eraseDups = l.eraseDups.filter chosen := by
  induction l using List.reverseRecOn with
  | nil => simp
  | append_singleton l a ih =>
    rw [List.filter_append, List.filter_singleton, eraseDups_concat]
    cases hchosen : chosen a with
    | false =>
      rw [Bool.cond_false, List.append_nil, ih]
      split
      · rfl
      · simp [hchosen]
    | true =>
      have hmem : a ∈ l.filter chosen ↔ a ∈ l := by simp [hchosen]
      rw [Bool.cond_true, eraseDups_concat, ih, ite_cond_congr (propext hmem)]
      split
      · rfl
      · simp [hchosen]

end Lists

section Edits

variable {edits : List Edit} {e : Edit} {a b p : String} {known : List String}

theorem added_concat : added (edits ++ [e]) = added edits ++ e.path?.toList := by
  unfold added
  cases h : e.path? <;> simp [h]

theorem nodeAt_concat : nodeAt (edits ++ [e]) p = (e.fileAt? p).getD (nodeAt edits p) := by
  unfold nodeAt
  rw [List.reverse_append, List.reverse_singleton, List.singleton_append, List.findSome?_cons]
  cases e.fileAt? p <;> rfl

theorem added_concat_statement : added (edits ++ [.statement a b]) = added edits := by
  rw [added_concat, Edit.path?, Option.toList_none, List.append_nil]

theorem nodeAt_concat_package : nodeAt (edits ++ [.package p]) = nodeAt edits :=
  funext fun _ => nodeAt_concat

theorem nodeAt_concat_statement : nodeAt (edits ++ [.statement a b]) = nodeAt edits :=
  funext fun _ => nodeAt_concat

theorem Edit.fileAt?_eq_some_iff {n : FileNode} : e.fileAt? p = some n ↔
    ∃ imports exports, e = .file p imports exports ∧ n = ⟨p, false, imports, exports⟩ := by
  cases e with
  | file path imports exports =>
    rw [Edit.fileAt?]
    by_cases h : path = p
    · simp [h, eq_comm]
    · simp [h]
  | package | statement => simp [Edit.fileAt?]

theorem nodeAt_cases (edits : List Edit) (p : String) :
    ((∀ imports exports, .file p imports exports ∉ edits) ∧ nodeAt edits p = ⟨p, true, [], []⟩) ∨
      ∃ imports exports, .file p imports exports ∈ edits ∧
        nodeAt edits p = ⟨p, false, imports, exports⟩ := by
  cases h : edits.reverse.findSome? (Edit.fileAt? p) with
  | none =>
    refine .inl ⟨fun imports exports hmem => ?_, by rw [nodeAt, h, Option.getD_none]⟩
    have hnone := List.findSome?_eq_none_iff.mp h _ (List.mem_reverse.mpr hmem)
    rw [Edit.fileAt?, if_pos rfl] at hnone
    cases hnone
  | some n =>
    obtain ⟨e, he, hn⟩ := List.exists_of_findSome?_eq_some h
    obtain ⟨imports, exports, rfl, rfl⟩ := Edit.fileAt?_eq_some_iff.mp hn
    exact .inr ⟨imports, exports, List.mem_reverse.mp he, by rw [nodeAt, h, Option.getD_some]⟩

theorem nodeAt_path : (nodeAt edits p).path = p := by
  rcases nodeAt_cases edits p with ⟨-, h⟩ | ⟨imports, exports, -, h⟩ <;> rw [h]

theorem isExternal_nodeAt : (nodeAt edits p).isExternal = true ↔
    ∀ imports exports, .file p imports exports ∉ edits := by
  rcases nodeAt_cases edits p with ⟨hno, h⟩ | ⟨imports, exports, hmem, h⟩
  · simp only [h, true_iff]
    exact hno
  · simp only [h, Bool.false_eq_true, false_iff]
    exact fun hno => hno imports exports hmem

theorem nodeAt_of_not_mem_added (h : p ∉ added edits) : nodeAt edits p = ⟨p, true, [], []⟩ := by
  rcases nodeAt_cases edits p with ⟨-, heq⟩ | ⟨imports, exports, hmem, -⟩
  · exact heq
  · have hadded : p ∈ added edits := List.mem_filterMap.mpr ⟨_, hmem, rfl⟩
    exact absurd hadded h

theorem recordedFrom_append (es : List Edit) : recordedFrom known (edits ++ es) =
    recordedFrom known edits ++ recordedFrom (known ++ added edits) es := by
  induction edits generalizing known with
  | nil => simp [recordedFrom, added]
  | cons e edits ih =>
    cases e with
    | file path imports exports | package name =>
      simp only [List.cons_append, recordedFrom, ih]
      simp [added, Edit.path?]
    | statement a b =>
      have hadded : added (.statement a b :: edits) = added edits := rfl
      simp only [List.cons_append, recordedFrom, ih, hadded]
      split <;> simp

theorem recorded_concat_statement : recorded (edits ++ [.statement a b]) =
    if a ∈ added edits ∧ b ∈ added edits then recorded edits ++ [(a, b)] else recorded edits := by
  rw [recorded, recordedFrom_append, ← recorded, List.nil_append, recordedFrom, recordedFrom]
  split <;> simp

theorem recorded_concat_of_path (h : e.path? = some p) :
    recorded (edits ++ [e]) = recorded edits := by
  rw [recorded, recordedFrom_append, ← recorded]
  cases e with
  | file | package => simp [recordedFrom]
  | statement => cases h

end Edits

theorem ends_tally (pairs : List (String × String)) :
    (tally pairs).map Edge.ends = pairs.eraseDups := by
  rw [tally, List.map_map]
  exact List.map_id _

theorem tally_filter (chosen : String × String → Bool) (pairs : List (String × String)) :
    tally (pairs.filter chosen) = (tally pairs).filter fun e => chosen e.ends := by
  rw [tally, tally, eraseDups_filter, List.filter_map]
  refine List.map_congr_left fun p hp => ?_
  rw [List.count_filter (List.mem_filter.mp hp).2]

/-- Pairs that are counted one by one and all different are counted on with one more of them. -/
theorem count_map_of_nodup (a b : String) (count : String × String → Nat)
    {pairs : List (String × String)} (h : pairs.Nodup) (hmem : (a, b) ∈ pairs) :
    Graph.count a b (pairs.map fun p => ⟨p.1, p.2, count p⟩) =
      pairs.map fun p => ⟨p.1, p.2, count p + if p = (a, b) then 1 else 0⟩ := by
  induction pairs with
  | nil => cases hmem
  | cons p pairs ih =>
    obtain ⟨hp, hrest⟩ := List.nodup_cons.mp h
    rw [List.map_cons, List.map_cons, Graph.count]
    by_cases heq : p = (a, b)
    · subst heq
      rw [if_pos ⟨rfl, rfl⟩, if_pos rfl]
      refine congrArg _ (List.map_congr_left fun q hq => ?_)
      have hne : q ≠ (a, b) := fun h => hp (h ▸ hq)
      rw [if_neg hne, Nat.add_zero]
    · have hne : ¬(p.1 = a ∧ p.2 = b) := fun h => heq (Prod.ext h.1 h.2)
      have hmem' : (a, b) ∈ pairs := (List.mem_cons.mp hmem).resolve_left (Ne.symm heq)
      rw [if_neg hne, ih hrest hmem', if_neg heq, Nat.add_zero]

theorem count_of_not_mem {a b : String} {es : List Edge} (h : (a, b) ∉ es.map Edge.ends) :
    Graph.count a b es = es ++ [⟨a, b, 1⟩] := by
  induction es with
  | nil => rfl
  | cons e es ih =>
    simp only [List.map_cons, List.mem_cons, not_or] at h
    have hne : ¬(e.source = a ∧ e.target = b) := fun he => h.1 (by rw [Edge.ends, he.1, he.2])
    rw [Graph.count, if_neg hne, ih h.2]
    rfl

theorem count_tally (pairs : List (String × String)) (a b : String) :
    Graph.count a b (tally pairs) = tally (pairs ++ [(a, b)]) := by
  have hcount (p : String × String) :
      (pairs ++ [(a, b)]).count p = pairs.count p + if p = (a, b) then 1 else 0 := by
    rw [List.count_append, List.count_singleton]
    by_cases hp : p = (a, b)
    · simp [hp]
    · have hne : ((a, b) == p) = false := beq_eq_false_iff_ne.mpr (Ne.symm hp)
      simp [hp, hne]
  unfold tally
  rw [eraseDups_concat]
  simp only [hcount]
  by_cases h : (a, b) ∈ pairs
  · rw [if_pos h]
    exact count_map_of_nodup a b _ (nodup_eraseDups pairs) (List.mem_eraseDups.mpr h)
  · have hends : (a, b) ∉ (tally pairs).map Edge.ends := by
      rw [ends_tally]
      exact mt List.mem_eraseDups.mp h
    have hold : tally pairs = pairs.eraseDups.map fun p =>
        ⟨p.1, p.2, pairs.count p + if p = (a, b) then 1 else 0⟩ := by
      refine List.map_congr_left fun q hq => ?_
      have hne : q ≠ (a, b) := fun heq => h (heq ▸ List.mem_eraseDups.mp hq)
      rw [if_neg hne, Nat.add_zero]
    rw [tally] at hends hold
    rw [if_neg h, count_of_not_mem hends, List.map_append, List.map_singleton,
      List.count_eq_zero_of_not_mem h, if_pos rfl, ← hold]

namespace Graph

variable {edits : List Edit} {maxDepth : Nat} {a b p : String}

/-- The graph that a history of edits leaves. -/
def ofHistory (maxDepth : Nat) (edits : List Edit) : Graph :=
  ⟨(added edits).eraseDups.map (nodeAt edits), tally (recorded edits), maxDepth⟩

theorem find?_map_paths (node : String → FileNode) (hnode : ∀ q, (node q).path = q)
    (paths : List String) : (paths.map node).find? (·.path == p) =
      if p ∈ paths then some (node p) else none := by
  induction paths with
  | nil => rfl
  | cons q paths ih =>
    rw [List.map_cons, List.find?_cons, hnode, ih]
    by_cases h : q = p
    · simp [h]
    · have hne : (q == p) = false := beq_eq_false_iff_ne.mpr h
      simp [hne, Ne.symm h]

theorem find?_ofHistory : (ofHistory maxDepth edits).find? p =
    if p ∈ added edits then some (nodeAt edits p) else none := by
  rw [find?, ofHistory, find?_map_paths _ fun _ => nodeAt_path]
  simp only [List.mem_eraseDups]

theorem contains_ofHistory : (ofHistory maxDepth edits).contains p = true ↔ p ∈ added edits := by
  rw [contains, find?_ofHistory]
  split <;> simp_all

theorem paths_ofHistory :
    (ofHistory maxDepth edits).nodes.map FileNode.path = (added edits).eraseDups := by
  rw [ofHistory, List.map_map]
  exact (List.map_congr_left fun q _ => nodeAt_path).trans (List.map_id _)

theorem addFile_ofHistory (imports : List Import) (exports : List Export) :
    (ofHistory maxDepth edits).addFile p imports exports =
      ofHistory maxDepth (edits ++ [.file p imports exports]) := by
  have hnode (q : String) : nodeAt (edits ++ [.file p imports exports]) q =
      if q = p then ⟨p, false, imports, exports⟩ else nodeAt edits q := by
    rw [nodeAt_concat, Edit.fileAt?]
    by_cases h : q = p
    · simp [h]
    · simp [h, Ne.symm h]
  have hrecorded : recorded (edits ++ [.file p imports exports]) = recorded edits :=
    recorded_concat_of_path rfl
  have hadded : added (edits ++ [.file p imports exports]) = added edits ++ [p] := added_concat
  unfold addFile
  by_cases h : p ∈ added edits
  · rw [if_pos (contains_ofHistory.mpr h), ofHistory, ofHistory, hrecorded, hadded,
      eraseDups_concat, if_pos h, List.map_map, Graph.mk.injEq]
    refine ⟨List.map_congr_left fun q _ => ?_, rfl, rfl⟩
    rw [Function.comp_apply, hnode, nodeAt_path]
    simp only [beq_iff_eq]
  · rw [if_neg (mt contains_ofHistory.mp h), ofHistory, ofHistory, hrecorded, hadded,
      eraseDups_concat, if_neg h, List.map_append, List.map_singleton, hnode,
      if_pos rfl, Graph.mk.injEq]
    refine ⟨congrArg (· ++ _) (List.map_congr_left fun q hq => ?_), rfl, rfl⟩
    have hne : q ≠ p := fun heq => h (heq ▸ List.mem_eraseDups.mp hq)
    rw [hnode, if_neg hne]

theorem addExternal_ofHistory :
    (ofHistory maxDepth edits).addExternal p = ofHistory maxDepth (edits ++ [.package p]) := by
  have hrecorded : recorded (edits ++ [.package p]) = recorded edits :=
    recorded_concat_of_path rfl
  have hadded : added (edits ++ [.package p]) = added edits ++ [p] := added_concat
  unfold addExternal
  by_cases h : p ∈ added edits
  · rw [if_pos (contains_ofHistory.mpr h), ofHistory, ofHistory, hrecorded, hadded,
      eraseDups_concat, if_pos h, nodeAt_concat_package]
  · rw [if_neg (mt contains_ofHistory.mp h), ofHistory, ofHistory, hrecorded, hadded,
      eraseDups_concat, if_neg h, nodeAt_concat_package, List.map_append, List.map_singleton,
      nodeAt_of_not_mem_added h]

theorem addImport?_ofHistory : (ofHistory maxDepth edits).addImport? a b =
    if a ∈ added edits ∧ b ∈ added edits then
      some (ofHistory maxDepth (edits ++ [.statement a b]))
    else none := by
  unfold addImport?
  simp only [Bool.and_eq_true, contains_ofHistory]
  by_cases h : a ∈ added edits ∧ b ∈ added edits
  · rw [if_pos h, if_pos h, ofHistory, ofHistory, recorded_concat_statement, if_pos h,
      added_concat_statement, nodeAt_concat_statement, count_tally]
  · rw [if_neg h, if_neg h]

/-- A statement whose ends are not both there leaves no trace. -/
theorem ofHistory_concat_rejected (h : ¬(a ∈ added edits ∧ b ∈ added edits)) :
    ofHistory maxDepth (edits ++ [.statement a b]) = ofHistory maxDepth edits := by
  rw [ofHistory, ofHistory, recorded_concat_statement, if_neg h, added_concat_statement,
    nodeAt_concat_statement]

theorem edit_ofHistory (e : Edit) :
    (ofHistory maxDepth edits).edit e = ofHistory maxDepth (edits ++ [e]) := by
  cases e with
  | file path imports exports => exact addFile_ofHistory imports exports
  | package name => exact addExternal_ofHistory
  | statement a b =>
    rw [edit, addImport?_ofHistory]
    by_cases h : a ∈ added edits ∧ b ∈ added edits
    · rw [if_pos h, Option.getD_some]
    · rw [if_neg h, Option.getD_none, ofHistory_concat_rejected h]

theorem ofEdits_eq_ofHistory (maxDepth : Nat) (edits : List Edit) :
    ofEdits maxDepth edits = ofHistory maxDepth edits := by
  induction edits using List.reverseRecOn with
  | nil => rfl
  | append_singleton edits e ih =>
    rw [ofEdits, List.foldl_append, ← ofEdits, ih]
    exact edit_ofHistory e

end Graph

end CodeAtlas.Dependency
