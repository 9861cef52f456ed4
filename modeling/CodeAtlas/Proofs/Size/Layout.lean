import CodeAtlas.Proofs.Size.FrontComments
import Mathlib.Data.List.Forall2

/-! Texts that are laid out differently. The blanks around a line hide nothing of it and add nothing
to it, inside of a block comment or outside of one, and a text that leaves no block comment open has
no say in what is counted behind it. -/

namespace CodeAtlas.Size

open Text

/-- Lines one behind the other, each with a line feed at its end. -/
def ended (lines : List (List Char)) : List Char := lines.flatMap (· ++ ['\n'])

/-- A text with a carriage return in front of each line feed. -/
def withReturns (text : List Char) : List Char :=
  text.flatMap fun c => if c = '\n' then ['\r', '\n'] else [c]

/-- Whether two lines differ in the blanks around them only. -/
def Relaid (line other : List Char) : Prop :=
  ∃ core before behind before' behind',
    (∀ c ∈ before ++ behind ++ before' ++ behind', isSpace c = true) ∧
    line = before ++ core ++ behind ∧ other = before' ++ core ++ behind'

instance : Add Breakdown where
  add a b := ⟨a.total + b.total, a.blank + b.blank, a.comment + b.comment,
    a.importing + b.importing, a.code + b.code, a.effective + b.effective⟩

section Blanks

variable {blanks line rest : List Char}

theorem trimEnd_append_of_blank (hblanks : ∀ c ∈ blanks, isSpace c = true) :
    trimEnd (line ++ blanks) = trimEnd line := by
  have hreversed : ∀ c ∈ blanks.reverse, isSpace c = true :=
    fun c hc => hblanks c (List.mem_reverse.mp hc)
  unfold trimEnd
  rw [List.reverse_append, List.dropWhile_append_of_pos hreversed]

theorem trimEnd_eq_nil (hblanks : ∀ c ∈ blanks, isSpace c = true) : trimEnd blanks = [] := by
  rw [← List.nil_append blanks, trimEnd_append_of_blank hblanks]
  rfl

theorem classifyRest_append_of_blank (inBlock sawComment : Bool)
    (hblanks : ∀ c ∈ blanks, isSpace c = true) :
    Line.classifyRest inBlock sawComment (blanks ++ rest) =
      Line.classifyRest inBlock sawComment rest := by
  induction blanks with
  | nil => rfl
  | cons c blanks ih =>
    rw [List.forall_mem_cons] at hblanks
    -- A blank is no part of a mark, wherever a line is read from.
    have hstar : c ≠ '*' := ne_of_isSpace hblanks.1 (by decide)
    have hslash : c ≠ '/' := ne_of_isSpace hblanks.1 (by decide)
    rw [List.cons_append]
    cases inBlock with
    | true =>
      rw [Line.classifyRest_block fun _ h => absurd h hstar]
      exact ih hblanks.2
    | false =>
      rw [Line.classifyRest_code fun _ h => absurd h hslash, if_pos hblanks.1]
      exact ih hblanks.2

theorem classify_append_of_blank (inBlock : Bool) (hblanks : ∀ c ∈ blanks, isSpace c = true) :
    Line.classify inBlock (blanks ++ line) = Line.classify inBlock line := by
  unfold Line.classify
  by_cases hline : trimEnd line = []
  · obtain ⟨behind, heq, hbehind, -⟩ := exists_eq_trimEnd_append line
    rw [hline, List.nil_append] at heq
    have hall : ∀ c ∈ blanks ++ line, isSpace c = true :=
      List.forall_mem_append.mpr ⟨hblanks, heq ▸ hbehind⟩
    rw [trimEnd_eq_nil hall, hline]
  · rw [Line.trimEnd_front_append blanks hline]
    exact classifyRest_append_of_blank inBlock false hblanks

end Blanks

theorem Relaid.classify_eq {line other : List Char} (h : Relaid line other) (inBlock : Bool) :
    Line.classify inBlock line = Line.classify inBlock other := by
  obtain ⟨core, before, behind, before', behind', hblanks, rfl, rfl⟩ := h
  simp only [List.forall_mem_append] at hblanks
  obtain ⟨⟨⟨hbefore, hbehind⟩, hbefore'⟩, hbehind'⟩ := hblanks
  have hcore {b e : List Char} (hb : ∀ c ∈ b, isSpace c = true) (he : ∀ c ∈ e, isSpace c = true) :
      Line.classify inBlock (b ++ core ++ e) = Line.classify inBlock core := by
    rw [List.append_assoc, classify_append_of_blank inBlock hb]
    unfold Line.classify
    rw [trimEnd_append_of_blank he]
  rw [hcore hbefore hbehind, hcore hbefore' hbehind']

namespace Breakdown

variable {s : Settings} {text other : String}

theorem ofLines_relaid {lines others : List (List Char)} (h : List.Forall₂ Relaid lines others)
    (b : Breakdown) (inBlock : Bool) :
    ofLines s (b, inBlock) lines = ofLines s (b, inBlock) others := by
  induction h generalizing b inBlock with
  | nil => rfl
  | @cons line other lines others hline _ ih =>
    have hfirst {line : List Char} {more : List (List Char)} :
        ofLines s (b, inBlock) (line :: more) =
          ofLines s (b.add s (Line.classify inBlock line).1, (Line.classify inBlock line).2) more :=
      rfl
    rw [hfirst, hfirst, hline.classify_eq inBlock]
    exact ih _ _

theorem ofText_relaid (h : List.Forall₂ Relaid (lines text.toList) (lines other.toList)) :
    ofText s text = ofText s other := by
  unfold ofText
  rw [ofLines_relaid h]

theorem tally_append (kinds more : List LineKind) :
    tally s (kinds ++ more) = tally s kinds + tally s more := by
  unfold tally
  simp only [List.length_append, List.count_append, List.countP_append]
  rfl

end Breakdown

section Lines

variable {rest : List Char}

theorem lines_ended_append {ls : List (List Char)} (h : ∀ line ∈ ls, '\n' ∉ line) :
    lines (ended ls ++ rest) = ls ++ lines rest := by
  induction ls with
  | nil => rfl
  | cons line more ih =>
    rw [List.forall_mem_cons] at h
    have hfirst : ended (line :: more) ++ rest = line ++ '\n' :: (ended more ++ rest) := by
      simp [ended]
    rw [hfirst, lines_line h.1, ih h.2, List.cons_append]

theorem lines_ended {ls : List (List Char)} (h : ∀ line ∈ ls, '\n' ∉ line) :
    lines (ended ls) = ls := by
  rw [← List.append_nil (ended ls), lines_ended_append h]
  exact List.append_nil ls

/-- A text that ends in a line feed is its lines, each with one at its end. -/
theorem exists_eq_ended (text : List Char) (h : ∀ c ∈ text.getLast?, c = '\n') :
    ∃ ls, text = ended ls ∧ ∀ line ∈ ls, '\n' ∉ line := by
  induction text using lines_induction with
  | empty => exact ⟨[], rfl, fun _ hline => absurd hline List.not_mem_nil⟩
  | last line hline hne =>
    have hlast := h _ (List.getLast?_eq_some_getLast hne)
    exact absurd (hlast ▸ List.getLast_mem hne) hline
  | line line rest hline ih =>
    have hrest : ∀ c ∈ rest.getLast?, c = '\n' := by
      intro c hc
      apply h c
      rw [Option.mem_def] at hc ⊢
      rw [List.getLast?_append, List.getLast?_cons, hc]
      rfl
    obtain ⟨ls, rfl, hls⟩ := ih hrest
    refine ⟨line :: ls, by simp [ended], List.forall_mem_cons.mpr ⟨hline, hls⟩⟩

theorem relaid_withReturns (text : List Char) :
    List.Forall₂ Relaid (lines (withReturns text)) (lines text) := by
  have hkeep {line : List Char} (hline : '\n' ∉ line) : withReturns line = line := by
    unfold withReturns
    refine Eq.trans (List.flatMap_congr fun c hc => ?_) (List.flatMap_singleton' line)
    have hc : c ≠ '\n' := fun heq => hline (heq ▸ hc)
    rw [if_neg hc]
  have hself (line : List Char) : Relaid line line :=
    ⟨line, [], [], [], [], by simp, by simp, by simp⟩
  induction text using lines_induction with
  | empty => exact .nil
  | last line hline hne =>
    rw [hkeep hline, lines_last hline hne]
    exact .cons (hself line) .nil
  | line line rest hline ih =>
    have hreturn : withReturns (line ++ '\n' :: rest) =
        line ++ ['\r'] ++ '\n' :: withReturns rest := by
      have hfront := hkeep hline
      unfold withReturns at hfront ⊢
      rw [List.flatMap_append, hfront, List.flatMap_cons]
      simp
    have hnot : '\n' ∉ line ++ ['\r'] := by simp [hline]
    have hblank : ∀ c ∈ ['\r'], isSpace c = true := List.forall_mem_singleton.mpr rfl
    have hline' : Relaid (line ++ ['\r']) line :=
      ⟨line, [], ['\r'], [], [], hblank, by simp, by simp⟩
    rw [hreturn, lines_line hnot, lines_line hline]
    exact .cons hline' ih

end Lines

/-- Texts whose lines differ in the blanks around them only are counted alike, and so are texts with
and without carriage returns; and what is behind a text that ends with its last line, outside of
block comments, is counted on its own. -/
theorem breakdown_blind_to_layout (s : Settings) :
    (∀ (text other : String) (ls others : List (List Char)),
      text.toList = ended ls → other.toList = ended others →
      (∀ line ∈ ls ++ others, '\n' ∉ line) → List.Forall₂ Relaid ls others →
        Breakdown.ofText s other = Breakdown.ofText s text) ∧
    (∀ text : String,
      Breakdown.ofText s (String.ofList (withReturns text.toList)) = Breakdown.ofText s text) ∧
    ∀ text more : String, text.toList.getLast? = some '\n' →
      (Breakdown.ofLines s (.empty, false) (lines text.toList)).2 = false →
        Breakdown.ofText s (text ++ more) =
          Breakdown.ofText s text + Breakdown.ofText s more := by
  refine ⟨fun text other ls others htext hother hfeed hrelaid => ?_, fun text => ?_,
    fun text more hlast hopen => ?_⟩
  · rw [List.forall_mem_append] at hfeed
    apply Eq.symm
    apply Breakdown.ofText_relaid
    rwa [htext, hother, lines_ended hfeed.1, lines_ended hfeed.2]
  · apply Breakdown.ofText_relaid
    rw [String.toList_ofList]
    exact relaid_withReturns text.toList
  · have hends : ∀ c ∈ text.toList.getLast?, c = '\n' := by
      rw [hlast]
      rintro c ⟨⟩
      rfl
    obtain ⟨ls, htext, hls⟩ := exists_eq_ended text.toList hends
    have hcounted (lines : List (List Char)) :
        (Breakdown.ofLines s (.empty, false) lines).1 =
          Breakdown.tally s (Line.kinds false lines) := by
      have hlines := Breakdown.ofLines_append s lines []
      rw [List.append_nil] at hlines
      rw [hlines, Line.kinds, List.append_nil]
    have hclosed : Line.leavesOpen false ls = false := by
      have hlines := Breakdown.ofLines_append s ls []
      rw [List.append_nil] at hlines
      rw [htext, lines_ended hls, hlines] at hopen
      exact hopen
    unfold Breakdown.ofText
    rw [String.toList_append, htext, lines_ended_append hls, lines_ended hls, hcounted, hcounted,
      hcounted, Line.kinds_append, hclosed, Breakdown.tally_append]

/-- Blanks beyond ASCII, behind a backslash and a quote, and around the marks of a comment. -/
theorem breakdown_blind_to_layout_blanks :
    let ls := ["  a = 'b\\' ", "\t/* c", "*/ import d", "\u00a0"].map String.toList
    let others := ["a = 'b\\'\u2003\t", "/* c", "\u0085 */ import d\r", ""].map String.toList
    let text := String.ofList (ended ls)
    List.Forall₂ Relaid ls others ∧
      Breakdown.ofText .default (String.ofList (ended others)) = Breakdown.ofText .default text ∧
      Breakdown.ofText .default (text ++ "/* e") =
        Breakdown.ofText .default text + Breakdown.ofText .default "/* e" ∧
      Breakdown.ofText .default text = ⟨4, 1, 1, 1, 1, 2⟩ := by
  intro ls others text
  have hrelaid : List.Forall₂ Relaid ls others := by
    refine .cons ⟨"a = 'b\\'".toList, [' ', ' '], [' '], [], ['\u2003', '\t'], ?_, ?_, ?_⟩
      (.cons ⟨"/* c".toList, ['\t'], [], [], [], ?_, ?_, ?_⟩
      (.cons ⟨"*/ import d".toList, [], [], ['\u0085', ' '], ['\r'], ?_, ?_, ?_⟩
      (.cons ⟨[], ['\u00a0'], [], [], [], ?_, ?_, ?_⟩ .nil)))
    any_goals apply List.all_eq_true.mp
    all_goals decide
  obtain ⟨hlayout, -, hmore⟩ := breakdown_blind_to_layout .default
  refine ⟨hrelaid, ?_, hmore text "/* e" (by decide) (by decide +kernel), by decide +kernel⟩
  exact hlayout text _ ls others String.toList_ofList String.toList_ofList (by decide) hrelaid

end CodeAtlas.Size
