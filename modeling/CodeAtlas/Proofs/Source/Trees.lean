import CodeAtlas.Source.Disk
import CodeAtlas.Proofs.Source.Paths
import Mathlib.Data.List.Nodup

/-! What walking through a tree of directories finds, told by the names that lead to its files. -/

namespace CodeAtlas.Source

namespace Entry

mutual

/-- The files of an entry: the names that lead to each, and what it holds. -/
def contents : Entry → List (List String × Option String)
  | file text => [([], text)]
  | directory entries => contentsAll entries

def contentsAll : List (String × Entry) → List (List String × Option String)
  | [] => []
  | (name, e) :: entries =>
    (contents e).map (fun f => (name :: f.1, f.2)) ++ contentsAll entries

end

mutual

/-- Whether the entries of each directory have names, each its own. -/
def isNamed : Entry → Bool
  | file _ => true
  | directory entries => decide (entries.map Prod.fst).Nodup && areNamed entries

def areNamed : List (String × Entry) → Bool
  | [] => true
  | (name, e) :: entries => FilePath.isName name && isNamed e && areNamed entries

end

/-- Whether names lead through a directory that is not looked into. -/
def entersIgnored (names : List String) : Bool :=
  names.dropLast.any fun name => isIgnored name (directory [])

theorem exists_cons_of_mem_contentsAll {entries : List (String × Entry)}
    {f : List String × Option String} (hf : f ∈ contentsAll entries) :
    ∃ name ∈ entries.map Prod.fst, ∃ names, f.1 = name :: names := by
  induction entries with
  | nil => simp [contentsAll] at hf
  | cons entry entries ih =>
    obtain ⟨name, e⟩ := entry
    rw [contentsAll, List.mem_append, List.mem_map] at hf
    rcases hf with ⟨g, -, rfl⟩ | hf
    · exact ⟨name, List.mem_cons_self, g.1, rfl⟩
    · obtain ⟨other, hother, names, hnames⟩ := ih hf
      exact ⟨other, List.mem_cons_of_mem name hother, names, hnames⟩

theorem ne_nil_of_mem_contentsAll {entries : List (String × Entry)}
    {f : List String × Option String} (hf : f ∈ contentsAll entries) : f.1 ≠ [] := by
  obtain ⟨name, -, names, hnames⟩ := exists_cons_of_mem_contentsAll hf
  rw [hnames]
  exact List.cons_ne_nil name names

theorem entersIgnored_cons {name : String} {e : Entry} {f : List String × Option String}
    (hf : f ∈ contents e) :
    entersIgnored (name :: f.1) = (isIgnored name e || entersIgnored f.1) := by
  cases e with
  | file text =>
    rw [contents, List.mem_singleton] at hf
    rw [hf]
    rfl
  | directory entries =>
    have hne : f.1 ≠ [] := ne_nil_of_mem_contentsAll hf
    unfold entersIgnored
    rw [List.dropLast_cons_of_ne_nil hne, List.any_cons]
    rfl

/-- Whether a walk comes to where names lead. -/
def reaches (depth : Nat) (names : List String) : Bool :=
  decide (names.length ≤ depth) && !entersIgnored names

theorem reaches_cons {name : String} {e : Entry} {f : List String × Option String} {depth : Nat}
    (hf : f ∈ contents e) :
    reaches (depth + 1) (name :: f.1) = (!isIgnored name e && reaches depth f.1) := by
  unfold reaches
  rw [entersIgnored_cons hf, List.length_cons, Bool.not_or, Bool.and_left_comm]
  simp

mutual

theorem walk_eq (depth : Nat) (path : String) : (e : Entry) → walk depth path e =
    ((contents e).filter fun f => reaches depth f.1).map fun f => f.1.foldl FilePath.join path
  | file text => by
    rw [walk, contents]
    simp [reaches, entersIgnored]
  | directory entries => by
    cases depth with
    | zero =>
      -- A file of a directory is at least one name away from it.
      have hnone : (contentsAll entries).filter (fun f => reaches 0 f.1) = [] := by
        apply List.filter_eq_nil_iff.mpr
        intro f hf
        simp [reaches, ne_nil_of_mem_contentsAll hf]
      rw [walk, contents, hnone, List.map_nil]
    | succ depth =>
      rw [walk, contents]
      exact walkAll_eq depth path entries

theorem walkAll_eq (depth : Nat) (path : String) : (entries : List (String × Entry)) →
    walkAll depth path entries = ((contentsAll entries).filter fun f => reaches (depth + 1) f.1).map
      fun f => f.1.foldl FilePath.join path
  | [] => rfl
  | (name, e) :: entries => by
    rw [walkAll, contentsAll, List.filter_append, List.map_append, walkAll_eq depth path entries,
      List.filter_map, List.map_map]
    have hreaches : (contents e).filter
          ((fun f => reaches (depth + 1) f.1) ∘ fun f => (name :: f.1, f.2)) =
        (contents e).filter fun f => !isIgnored name e && reaches depth f.1 :=
      List.filter_congr fun f hf => reaches_cons hf
    rw [hreaches]
    cases isIgnored name e with
    | true => simp
    | false =>
      rw [if_neg Bool.false_ne_true, walk_eq depth (FilePath.join path name) e]
      simp

end

mutual

theorem isName_of_mem_contents : (e : Entry) → isNamed e = true →
    ∀ f ∈ contents e, ∀ name ∈ f.1, FilePath.isName name = true
  | file text => by
    intro _ f hf name hname
    rw [contents, List.mem_singleton] at hf
    rw [hf] at hname
    exact absurd hname List.not_mem_nil
  | directory entries => by
    intro h
    rw [isNamed, Bool.and_eq_true] at h
    rw [contents]
    exact isName_of_mem_contentsAll entries h.2

theorem isName_of_mem_contentsAll : (entries : List (String × Entry)) → areNamed entries = true →
    ∀ f ∈ contentsAll entries, ∀ name ∈ f.1, FilePath.isName name = true
  | [] => by simp [contentsAll]
  | (name, e) :: entries => by
    intro h f hf
    rw [areNamed, Bool.and_eq_true, Bool.and_eq_true] at h
    rw [contentsAll, List.mem_append, List.mem_map] at hf
    rcases hf with ⟨g, hg, rfl⟩ | hf
    · rw [List.forall_mem_cons]
      exact ⟨h.1.1, isName_of_mem_contents e h.1.2 g hg⟩
    · exact isName_of_mem_contentsAll entries h.2 f hf

end

mutual

theorem nodup_contents : (e : Entry) → isNamed e = true → ((contents e).map Prod.fst).Nodup
  | file text => fun _ => List.nodup_singleton []
  | directory entries => by
    intro h
    rw [isNamed, Bool.and_eq_true, decide_eq_true_eq] at h
    rw [contents]
    exact nodup_contentsAll entries h.1 h.2

theorem nodup_contentsAll : (entries : List (String × Entry)) → (entries.map Prod.fst).Nodup →
    areNamed entries = true → ((contentsAll entries).map Prod.fst).Nodup
  | [] => fun _ _ => List.nodup_nil
  | (name, e) :: entries => by
    intro hnames h
    rw [areNamed, Bool.and_eq_true, Bool.and_eq_true] at h
    rw [List.map_cons, List.nodup_cons] at hnames
    rw [contentsAll, List.map_append, List.map_map, List.nodup_append']
    refine ⟨?_, nodup_contentsAll entries hnames.2 h.2, ?_⟩
    · have hcons : (Prod.fst ∘ fun f : List String × Option String => (name :: f.1, f.2)) =
          (List.cons name) ∘ Prod.fst := rfl
      rw [hcons, ← List.map_map]
      exact (nodup_contents e h.1.2).map (List.cons_injective)
    · intro names hfront hback
      obtain ⟨g, -, rfl⟩ := List.mem_map.mp hfront
      obtain ⟨f, hf, hfst⟩ := List.mem_map.mp hback
      obtain ⟨other, hother, rest, hrest⟩ := exists_cons_of_mem_contentsAll hf
      have hsame : other = name := List.head_eq_of_cons_eq (hrest.symm.trans hfst)
      exact hnames.1 (hsame ▸ hother)

end

end Entry

end CodeAtlas.Source
