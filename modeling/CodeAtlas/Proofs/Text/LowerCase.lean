import CodeAtlas.Text.Lowercase
import CodeAtlas.Text.Words
import Mathlib.Data.String.Basic

/-! Texts in lower case. No letter in lower case has another lower case form, so a text that has
been put into lower case stays as it is from then on, and so does each part of it. Among ASCII
letters, lower case goes letter by letter. -/

namespace CodeAtlas.Text

section Letters

/-- Whether a character is its own lower case form wherever it stands. -/
structure IsSettled (c : Char) : Prop where
  ne_dotted : c ≠ '\u0130'
  ne_sigma : c ≠ sigma
  lower : lowerChar c = c

/-- Whether a letter is one of a run. -/
def InRun (run : Nat × Nat × Nat × Int) (n : Nat) : Prop :=
  run.1 ≤ n ∧ n ≤ run.2.1 ∧ (n - run.1) % run.2.2.1 = 0

/-- Whether the lower case forms of a run are not letters of another one: they are beyond it, or
between its letters. -/
def areApart (run other : Nat × Nat × Nat × Int) : Bool :=
  (run.2.1 + run.2.2.2).toNat.blt other.1 || other.2.1.blt (run.1 + run.2.2.2).toNat ||
    ((run.1 = run.2.1 || run.2.2.1 = 2) && other.2.2.1 = 2 &&
      (run.1 + run.2.2.2 + other.1) % 2 = 1)

/-- Whether the lower case forms of a run are characters, and neither capitals of ASCII nor a
capital I with a dot. -/
def endsWell (run : Nat × Nat × Nat × Int) : Bool :=
  91 ≤ run.1 + run.2.2.2 && areApart run (0x130, 0x130, 2, 0) &&
    (run.2.1 + run.2.2.2 < 0xD800 ||
      0xE000 ≤ run.1 + run.2.2.2 && run.2.1 + run.2.2.2 < 0x110000)

theorem areApart_lowerRuns {run other : Nat × Nat × Nat × Int} (hrun : run ∈ lowerRuns)
    (hother : other ∈ lowerRuns) : areApart run other = true := by
  have hall : (lowerRuns.all fun run => lowerRuns.all (areApart run)) = true := by decide +kernel
  exact List.all_eq_true.mp (List.all_eq_true.mp hall run hrun) other hother

theorem endsWell_lowerRuns {run : Nat × Nat × Nat × Int} (hrun : run ∈ lowerRuns) :
    endsWell run = true := by
  have hall : lowerRuns.all endsWell = true := by decide +kernel
  exact List.all_eq_true.mp hall run hrun

theorem not_inRun_of_areApart {run other : Nat × Nat × Nat × Int} (h : areApart run other = true)
    {n m : Nat} (hn : InRun run n) (hm : (n : Int) + run.2.2.2 = m) : ¬InRun other m := by
  obtain ⟨first, last, distance, shift⟩ := run
  obtain ⟨first', last', distance', shift'⟩ := other
  rintro ⟨hfirst, hlast, hstep⟩
  obtain ⟨hfirst', hlast', hstep'⟩ := hn
  simp only [areApart, Bool.or_eq_true, Bool.and_eq_true, Nat.blt_eq, decide_eq_true_eq] at *
  rcases h with (h | h) | ⟨⟨hone | htwo, htwo'⟩, hodd⟩
  · omega
  · omega
  · subst htwo'
    omega
  · subst htwo htwo'
    omega

theorem lowerChar_cases (c : Char) :
    (c.toNat < 128 ∧ lowerChar c = c.toLower) ∨
    (∃ run ∈ lowerRuns, InRun run c.toNat ∧
      lowerChar c = Char.ofNat (c.toNat + run.2.2.2).toNat) ∨
    (128 ≤ c.toNat ∧ lowerChar c = c) := by
  unfold lowerChar
  split
  next hascii => exact .inl ⟨hascii, rfl⟩
  next hascii =>
    dsimp only
    split
    next first last distance shift hfind =>
      have hin := List.find?_some hfind
      simp only [Bool.and_eq_true, decide_eq_true_eq] at hin
      exact .inr (.inl ⟨_, List.mem_of_find?_eq_some hfind, ⟨hin.1.1, hin.1.2, hin.2⟩, rfl⟩)
    next => exact .inr (.inr ⟨Nat.le_of_not_lt hascii, rfl⟩)

theorem toLower_of_toNat {c : Char} (h : 91 ≤ c.toNat) : c.toLower = c :=
  dif_neg fun hupper =>
    absurd (Nat.le_trans h (UInt32.le_iff_toNat_le.mp hupper.2)) (by decide)

theorem toLower_cases (c : Char) :
    c.toLower = c ∨ 97 ≤ c.toLower.toNat ∧ c.toLower.toNat ≤ 122 := by
  by_cases h : c.val ≥ 'A'.val ∧ c.val ≤ 'Z'.val
  · right
    have hfirst : 65 ≤ c.val.toNat := UInt32.le_iff_toNat_le.mp h.1
    have hlast : c.val.toNat ≤ 90 := UInt32.le_iff_toNat_le.mp h.2
    have hlower : c.toLower.val = c.val + 32 := congrArg Char.val (dif_pos h)
    have hsum : c.toLower.toNat = c.val.toNat + 32 := by
      rw [Char.toNat, hlower, UInt32.toNat_add]
      exact Nat.mod_eq_of_lt (show c.val.toNat + 32 < 2 ^ 32 by omega)
    omega
  · exact .inl (dif_neg h)

theorem isSettled_of_toNat_lt {c : Char} (h : c.toNat < 128) (hlower : c.toLower = c) :
    IsSettled c := by
  refine ⟨?_, ?_, by rw [lowerChar, if_pos h, hlower]⟩ <;>
    · rintro rfl
      exact absurd h (by decide)

theorem isSettled_ofNat {run : Nat × Nat × Nat × Int} (hrun : run ∈ lowerRuns) {n : Nat}
    (hn : InRun run n) : IsSettled (Char.ofNat (n + run.2.2.2).toNat) := by
  have hends := endsWell_lowerRuns hrun
  simp only [endsWell, Bool.and_eq_true, Bool.or_eq_true, decide_eq_true_eq] at hends
  obtain ⟨⟨hlow, hdotted⟩, hvalid⟩ := hends
  obtain ⟨hfirst, hlast, -⟩ := id hn
  obtain ⟨m, hm⟩ : ∃ m : Nat, (n : Int) + run.2.2.2 = m :=
    ⟨_, (Int.toNat_of_nonneg (by omega)).symm⟩
  have hscalar : m.isValidChar := by
    unfold Nat.isValidChar
    omega
  have htoNat : (Char.ofNat m).toNat = m := by
    rw [Char.ofNat, dif_pos hscalar]
    rfl
  rw [hm, Int.toNat_natCast]
  have hlower : (Char.ofNat m).toLower = Char.ofNat m := toLower_of_toNat (by omega)
  -- The form of a letter is no letter of any run, so it has no other form itself.
  have hnone (other : Nat × Nat × Nat × Int) (hother : other ∈ lowerRuns) : ¬InRun other m :=
    not_inRun_of_areApart (areApart_lowerRuns hrun hother) hn hm
  have hne {c : Char} (hc : (c.toNat = 0x130 ∨ ∃ other ∈ lowerRuns, InRun other c.toNat)) :
      Char.ofNat m ≠ c := by
    rintro rfl
    rw [htoNat] at hc
    rcases hc with rfl | ⟨other, hother, hin⟩
    · exact not_inRun_of_areApart hdotted hn hm ⟨by decide, by decide, by decide⟩
    · exact hnone other hother hin
  rcases lowerChar_cases (Char.ofNat m) with ⟨hascii, -⟩ | ⟨other, hother, hin, -⟩ | ⟨-, hself⟩
  · exact isSettled_of_toNat_lt hascii hlower
  · rw [htoNat] at hin
    exact absurd hin (hnone other hother)
  · have hsigma : InRun (0x3A3, 0x3AB, 1, 32) sigma.toNat := ⟨by decide, by decide, by decide⟩
    exact ⟨hne (.inl rfl), hne (.inr ⟨_, by decide +kernel, hsigma⟩), hself⟩

theorem isSettled_lowerChar {c : Char} (hdotted : c ≠ '\u0130') (hsigma : c ≠ sigma) :
    IsSettled (lowerChar c) := by
  rcases lowerChar_cases c with ⟨hascii, hlower⟩ | ⟨run, hrun, hin, hlower⟩ | ⟨-, hself⟩
  · rw [hlower]
    rcases toLower_cases c with hself | ⟨hlow, hhigh⟩
    · rw [hself]
      exact isSettled_of_toNat_lt hascii hself
    · exact isSettled_of_toNat_lt (by omega) (toLower_of_toNat (by omega))
  · rw [hlower]
    exact isSettled_ofNat hrun hin
  · exact ⟨by rwa [hself], by rwa [hself], by rw [hself, hself]⟩

end Letters

section Texts

variable {before cs : List Char} {part text : String}

theorem lowerFrom_of_settled (h : ∀ c ∈ cs, IsSettled c) : lowerFrom before cs = cs := by
  induction cs generalizing before with
  | nil => rfl
  | cons c cs ih =>
    rw [List.forall_mem_cons] at h
    rw [lowerFrom, if_neg h.1.ne_dotted, if_neg h.1.ne_sigma, h.1.lower, ih h.2]
    rfl

theorem isSettled_of_mem_lowerFrom {c : Char} (h : c ∈ lowerFrom before cs) : IsSettled c := by
  induction cs generalizing before with
  | nil => exact absurd h List.not_mem_nil
  | cons d cs ih =>
    rw [lowerFrom] at h
    rcases List.mem_append.mp h with h | h
    · split at h
      next =>
        rcases List.mem_pair.mp h with rfl | rfl <;> exact ⟨by decide, by decide, by decide +kernel⟩
      next hdotted =>
        split at h
        next =>
          rw [List.mem_singleton] at h
          subst h
          split <;> exact ⟨by decide, by decide, by decide +kernel⟩
        next hsigma =>
          rw [List.mem_singleton.mp h]
          exact isSettled_lowerChar hdotted hsigma
    · exact ih h

theorem isSettled_of_mem_lowercase {c : Char} (h : c ∈ (lowercase text).toList) : IsSettled c := by
  rw [lowercase, String.toList_ofList] at h
  exact isSettled_of_mem_lowerFrom h

theorem lowercase_of_settled (h : ∀ c ∈ text.toList, IsSettled c) : lowercase text = text := by
  rw [lowercase, lowerFrom_of_settled h, String.ofList_toList]

theorem contains_iff_infix {part cs : List Char} : contains part cs = true ↔ part <:+: cs := by
  induction cs with
  | nil => simp [contains]
  | cons c cs ih =>
    rw [contains, Bool.or_eq_true, List.isPrefixOf_iff_prefix, ih, List.infix_cons_iff]

theorem hasPart_iff : hasPart part text = true ↔ part.toList <:+: text.toList :=
  contains_iff_infix

theorem hasPart_trans {whole : String} (h : hasPart part text = true)
    (h' : hasPart text whole = true) : hasPart part whole = true :=
  hasPart_iff.mpr ((hasPart_iff.mp h).trans (hasPart_iff.mp h'))

/-- A part of a text in lower case is in lower case. -/
theorem lowercase_of_hasPart_lowercase (h : hasPart part (lowercase text) = true) :
    lowercase part = part :=
  lowercase_of_settled fun _ hc => isSettled_of_mem_lowercase ((hasPart_iff.mp h).subset hc)

end Texts

section Ascii

variable {part text : String}

def IsAscii (text : String) : Prop := ∀ c ∈ text.toList, c.toNat < 128

instance : DecidablePred IsAscii :=
  fun text => decidable_of_iff (text.toList.all (·.toNat < 128) = true) (by simp [IsAscii])

theorem lowerFrom_of_ascii {before cs : List Char} (h : ∀ c ∈ cs, c.toNat < 128) :
    lowerFrom before cs = cs.map Char.toLower := by
  induction cs generalizing before with
  | nil => rfl
  | cons c cs ih =>
    rw [List.forall_mem_cons] at h
    have hne {d : Char} (hd : 128 ≤ d.toNat) : c ≠ d := by
      rintro rfl
      omega
    rw [lowerFrom, if_neg (hne (by decide)), if_neg (hne (by decide)), lowerChar, if_pos h.1,
      ih h.2]
    rfl

theorem IsAscii.toList_lowercase (h : IsAscii text) :
    (lowercase text).toList = text.toList.map Char.toLower := by
  rw [lowercase, String.toList_ofList, lowerFrom_of_ascii h]

theorem IsAscii.of_hasPart (h : IsAscii text) (hpart : hasPart part text = true) : IsAscii part :=
  fun c hc => h c ((hasPart_iff.mp hpart).subset hc)

/-- What occurs in a text occurs in it whatever the case of either. -/
theorem IsAscii.hasPart_lowercase (h : IsAscii text) (hpart : hasPart part text = true) :
    hasPart (lowercase part) (lowercase text) = true := by
  rw [hasPart_iff, h.toList_lowercase, (h.of_hasPart hpart).toList_lowercase]
  exact (hasPart_iff.mp hpart).map Char.toLower

end Ascii

end CodeAtlas.Text
