import CodeAtlas.Proofs.Size.Kinds

/-! Template literals over several lines and regular expressions. Lines are classified without any
knowledge of either: the inner lines of a template are read for lines of code, and the body of a
regular expression for code without an end. -/

namespace CodeAtlas.Size

/-- A statement with a literal in it. -/
inductive Literal where
  /-- A template literal, with the lines between its first and its last one. -/
  | template (inner : List (List Char))
  | regex (body : List Char)

/-- Whether the slashes of a regular expression are all escaped or in a class, and its classes and
escapes complete, where its body goes on from inside of a class or outside of one. -/
def isRegexRest : Bool → List Char → Bool
  | inClass, [] => !inClass
  | inClass, '\\' :: cs =>
    match cs with
    | [] => false
    | _ :: cs => isRegexRest inClass cs
  | false, '/' :: _ => false
  | false, '[' :: cs => isRegexRest true cs
  | true, ']' :: cs => isRegexRest false cs
  | inClass, _ :: cs => isRegexRest inClass cs

namespace Literal

def lines : Literal → List (List Char)
  | template inner => "const s = \x60".toList :: inner ++ ["\x60;".toList]
  | regex body => ["x = y.replace(/".toList ++ body ++ "/, z);".toList]

def WellFormed : Literal → Prop
  | template inner => ∀ line ∈ inner, '\x60' ∉ line ∧ '\\' ∉ line ∧ '\n' ∉ line
  | regex body => (body.all fun c => !Line.isQuote c && c ≠ '\n') ∧ isRegexRest false body = true ∧
      body.head?.any fun c => c ≠ '*' ∧ c ≠ '/'

instance : DecidablePred WellFormed
  | template inner =>
    inferInstanceAs (Decidable (∀ line ∈ inner, '\x60' ∉ line ∧ '\\' ∉ line ∧ '\n' ∉ line))
  | regex body =>
    inferInstanceAs (Decidable ((body.all fun c => !Line.isQuote c && c ≠ '\n') ∧
      isRegexRest false body = true ∧ body.head?.any fun c => c ≠ '*' ∧ c ≠ '/'))

/-- Whether a literal that is taken for code has a reader inside of a block comment behind it. The
reader carries block comments over the inner lines of a template, but no strings. -/
def readAsBlock : Literal → Bool
  | template inner => inner.foldl (fun inBlock line =>
      ((Scanner.ofBlock inBlock).after line).mode == .blockComment) false
  | regex body => (Scanner.after ⟨.code, false⟩ (body ++ ['/'])).mode == .blockComment

end Literal

section Plain

variable {c d : Char} {cs tail : List Char}

/-- A character that neither opens nor closes nor escapes anything. -/
def isPlain (c : Char) : Bool := !(c = '/' || c = '*' || c = '\\' || Line.isQuote c)

theorem append_plain_ne_cons (htail : ∀ c ∈ tail, isPlain c = true) (hd : isPlain d = false)
    (hcs : ∀ rest, cs = d :: rest → False) (rest : List Char) : cs ++ tail = d :: rest → False := by
  intro h
  cases cs with
  | nil =>
    have hmem : d ∈ tail := by
      rw [← List.nil_append tail, h]
      exact List.mem_cons_self
    rw [htail d hmem] at hd
    exact absurd hd (by decide)
  | cons a as =>
    rw [List.cons_append] at h
    exact hcs as (by rw [(List.cons.inj h).1])

theorem leavesBlockOpen_plain (inside : Line.Inside) (htail : ∀ c ∈ tail, isPlain c = true) :
    Line.leavesBlockOpen inside tail = (inside == .block) := by
  induction tail generalizing inside with
  | nil => rw [Line.leavesBlockOpen]
  | cons c cs ih =>
    rw [List.forall_mem_cons] at htail
    obtain ⟨hc, hcs⟩ := htail
    have hplain : c ≠ '/' ∧ c ≠ '*' ∧ c ≠ '\\' ∧ Line.isQuote c = false := by
      simpa [isPlain, and_assoc] using hc
    obtain ⟨hslash, hstar, hescape, hquote⟩ := hplain
    cases inside with
    | code => simp_all [Line.leavesBlockOpen]
    | quoted q =>
      rw [Line.leavesBlockOpen, ih _ hcs]
      · split <;> rfl
      · exact fun hc => absurd hc hescape
      · exact fun _ _ hc => absurd hc hescape
    | block =>
      rw [Line.leavesBlockOpen, ih _ hcs]
      exact fun _ hc => absurd hc hstar

theorem leavesBlockOpen_append_plain (htail : ∀ c ∈ tail, isPlain c = true)
    (inside : Line.Inside) (cs : List Char) :
    Line.leavesBlockOpen inside (cs ++ tail) = Line.leavesBlockOpen inside cs := by
  induction inside, cs using Line.leavesBlockOpen.induct with
  | case1 inside => exact leavesBlockOpen_plain inside htail
  | case2 cs ih => exact ih
  | case3 c cs hclose ih =>
    have hopen : ∀ rest, c = '*' → cs ++ tail = '/' :: rest → False := fun rest hc =>
      append_plain_ne_cons htail (by decide) (fun rest => hclose rest hc) rest
    rw [List.cons_append, Line.leavesBlockOpen, ih, Line.leavesBlockOpen]
    · exact hclose
    · exact hopen
  | case4 q =>
    cases tail with
    | nil => rfl
    | cons d ds =>
      rw [List.forall_mem_cons] at htail
      have hrest := leavesBlockOpen_plain (.quoted q) htail.2
      exact hrest
  | case5 q c cs ih => exact ih
  | case6 q c cs hlast hnext ih =>
    have hescape : c ≠ '\\' := by
      rintro rfl
      cases cs with
      | nil => exact hlast rfl rfl
      | cons d ds => exact hnext d ds rfl rfl
    rw [List.cons_append, Line.leavesBlockOpen, ih, Line.leavesBlockOpen]
    · exact hlast
    · exact hnext
    · exact fun hc => absurd hc hescape
    · exact fun _ _ hc => absurd hc hescape
  | case7 rest => rfl
  | case8 cs ih => exact ih
  | case9 c cs hline hblock ih =>
    have hline' : ∀ rest, c = '/' → cs ++ tail = '/' :: rest → False := fun rest hc =>
      append_plain_ne_cons htail (by decide) (fun rest => hline rest hc) rest
    have hblock' : ∀ rest, c = '/' → cs ++ tail = '*' :: rest → False := fun rest hc =>
      append_plain_ne_cons htail (by decide) (fun rest => hblock rest hc) rest
    rw [List.cons_append, Line.leavesBlockOpen, ih, Line.leavesBlockOpen]
    · exact hline
    · exact hblock
    · exact hline'
    · exact hblock'

end Plain

namespace Literal

theorem leavesOpen_template (inner : List (List Char)) :
    Line.leavesOpen false (template inner).lines = (template inner).readAsBlock := by
  have hfirst : (Line.classify false "const s = \x60".toList).2 = false := by decide +kernel
  have hlast (b : Bool) : (Line.classify b "\x60;".toList).2 = b := by cases b <;> decide +kernel
  have hinner : (fun inBlock line => (Line.classify inBlock line).2) = fun inBlock line =>
      ((Scanner.ofBlock inBlock).after line).mode == .blockComment := by
    funext inBlock line
    rw [Scanner.classify_eq]
  rw [lines, List.cons_append, Line.leavesOpen_cons, hfirst, Line.leavesOpen_append,
    Line.leavesOpen_cons, hlast, readAsBlock, ← hinner]
  rfl

theorem classify_regex (body : List Char) :
    (Line.classify false ("x = y.replace(/".toList ++ body ++ "/, z);".toList)).2 =
      Line.leavesBlockOpen .code ('/' :: (body ++ "/, z);".toList)) := by
  have hlast : ∀ a ∈ ("x = y.replace(/".toList ++ body ++ "/, z);".toList).getLast?,
      Text.isSpace a = false := by
    intro a ha
    rw [List.getLast?_append] at ha
    obtain rfl : ';' = a := by simpa using ha
    decide
  have hblanks : ∀ b ∈ [], Text.isSpace b = true := List.forall_mem_nil _
  have htrim := trimEnd_append_blanks hblanks hlast
  rw [List.append_nil] at htrim
  rw [Line.classify, htrim]
  rfl

theorem leavesOpen_regex {body : List Char} (hl : (regex body).WellFormed) :
    Line.leavesOpen false (regex body).lines = (regex body).readAsBlock := by
  obtain ⟨-, -, hhead⟩ := hl
  have hbody : body ++ "/, z);".toList = body ++ ['/'] ++ ", z);".toList := by
    rw [List.append_assoc]
    rfl
  have hslash : Line.leavesBlockOpen .code ('/' :: (body ++ "/, z);".toList)) =
      Line.leavesBlockOpen .code (body ++ "/, z);".toList) := by
    cases body with
    | nil => exact absurd hhead (by decide)
    | cons c cs =>
      have hfirst : c ≠ '*' ∧ c ≠ '/' := by simpa using hhead
      rw [List.cons_append, Line.leavesBlockOpen]
      · rfl
      · exact fun _ _ h => hfirst.2 (List.cons.inj h).1
      · exact fun _ _ h => hfirst.1 (List.cons.inj h).1
  have htail : ∀ c ∈ ", z);".toList, isPlain c = true := List.all_eq_true.mp (by decide)
  have hblanks : ∀ b ∈ [], Text.isSpace b = true := List.forall_mem_nil _
  have hread := Scanner.leavesBlockOpen_eq hblanks .code (body ++ ['/'])
  have hline : Line.leavesOpen false (regex body).lines = (Line.classify false
      ("x = y.replace(/".toList ++ body ++ "/, z);".toList)).2 := rfl
  rw [hline, classify_regex, hslash, hbody, leavesBlockOpen_append_plain htail, hread,
    List.append_nil]
  rfl

theorem leavesOpen_lines {l : Literal} (hl : l.WellFormed) :
    Line.leavesOpen false l.lines = l.readAsBlock := by
  cases l with
  | template inner => exact leavesOpen_template inner
  | regex body => exact leavesOpen_regex hl

end Literal

/-- The lines behind a literal are classified as if it were not there exactly if a reader that
takes it for code is outside of block comments behind it, as it is if nothing in the literal opens
one. -/
theorem kinds_behind_literal_iff {before : List (List Char)} {l : Literal}
    (hbefore : Line.leavesOpen false before = false) (hl : l.WellFormed) :
    ((∀ behind, Line.kinds (Line.leavesOpen false (before ++ l.lines)) behind =
        Line.kinds (Line.leavesOpen false before) behind) ↔ l.readAsBlock = false) ∧
      ((∀ line ∈ l.lines, ¬Line.openingMark <:+: line) → l.readAsBlock = false) := by
  have hliteral : Line.leavesOpen false (before ++ l.lines) = l.readAsBlock := by
    rw [Line.leavesOpen_append, hbefore, Literal.leavesOpen_lines hl]
  rw [hliteral, hbefore]
  refine ⟨⟨fun hbehind => ?_, fun hread behind => by rw [hread]⟩, fun hmarks => ?_⟩
  · -- A line of code tells the two states apart.
    have hcode : Line.kinds false [['a']] ≠ Line.kinds true [['a']] := by decide +kernel
    cases hread : l.readAsBlock with
    | false => rfl
    | true =>
      have hkinds := hbehind [['a']]
      rw [hread] at hkinds
      exact absurd hkinds.symm hcode
  · rw [← Literal.leavesOpen_lines hl]
    exact Line.leavesOpen_of_not_infix hmarks

/-- A closing mark in a later line, or the star before the slash at the end of a regular expression,
closes what the literal seemed to open. -/
theorem kinds_behind_literal_iff_closed :
    let before := ["/* a".toList, "*/ f();".toList]
    let template := Literal.template ["a /* b".toList, "it's */ c".toList]
    let regex := Literal.regex "[/*]b*".toList
    ∀ behind, Line.kinds (Line.leavesOpen false (before ++ template.lines)) behind =
        Line.kinds (Line.leavesOpen false before) behind ∧
      Line.kinds (Line.leavesOpen false (before ++ regex.lines)) behind =
        Line.kinds (Line.leavesOpen false before) behind := by
  intro before template regex behind
  have hbefore : Line.leavesOpen false before = false := by decide +kernel
  have htemplate : template.WellFormed ∧ template.readAsBlock = false := by decide +kernel
  have hregex : regex.WellFormed ∧ regex.readAsBlock = false := by decide +kernel
  exact ⟨(kinds_behind_literal_iff hbefore htemplate.1).1.mpr htemplate.2 behind,
    (kinds_behind_literal_iff hbefore hregex.1).1.mpr hregex.2 behind⟩

/-- Neither templates nor regular expressions are known for what they are. -/
theorem not_forall_kinds_behind_literal :
    (¬∀ before inner behind, Line.leavesOpen false before = false →
      (Literal.template inner).WellFormed →
        Line.kinds (Line.leavesOpen false (before ++ (Literal.template inner).lines)) behind =
          Line.kinds (Line.leavesOpen false before) behind) ∧
    ¬∀ before body behind, Line.leavesOpen false before = false →
      (Literal.regex body).WellFormed →
        Line.kinds (Line.leavesOpen false (before ++ (Literal.regex body).lines)) behind =
          Line.kinds (Line.leavesOpen false before) behind := by
  constructor
  · intro h
    have hbehind := h [] ["a /*".toList] ["after();".toList] rfl (by decide +kernel)
    exact absurd hbehind (by decide +kernel)
  · intro h
    have hbehind := h [] "[/*]".toList ["after();".toList] rfl (by decide +kernel)
    exact absurd hbehind (by decide +kernel)

end CodeAtlas.Size
