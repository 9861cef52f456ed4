import CodeAtlas.Grammar.Form

/-! Which nodes may come of a form, whatever the text. `Yields` forgets lookahead, the order of
choices and what tokens say that may say different things, and keeps how nodes are put together; a
fact about all trees is an induction over it. -/

namespace CodeAtlas

/-- Whether a node is a token without parts and without a role. -/
structure Node.IsLeaf (kind : Kind) (n : Node) : Prop where
  kind : n.kind = kind
  role : n.role = none
  children : n.children = []

/-- Whether a node is made of what was read, but for the comments in front. -/
structure Node.Wraps (kind : Kind) (read : List Node) (n : Node) : Prop where
  kind : n.kind = kind
  role : n.role = none
  children : n.children = read.dropWhile Node.isComment

namespace Grammar

variable {R : Type} {g : Rules R} {d : Dialect}

/-- What a step makes of what was read before it. -/
def asLeft (left : Option Role) (read : List Node) : List Node :=
  match left with
  | some r => giveRole r read
  | none => read

inductive Yields (g : Rules R) (d : Dialect) : Form R → List Node → Prop
  | token {lexeme : Lexeme} {kind : Kind} {comments : List Node} {leaf : Node}
      (hcomments : ∀ n ∈ comments, n.IsLeaf .comment) (hleaf : leaf.IsLeaf kind) :
      Yields g d (.token lexeme kind) (comments ++ [leaf])
  | raw {lexeme : Lexeme} {kind : Kind} {leaf : Node} (hleaf : leaf.IsLeaf kind)
      (htext : ∀ text, lexeme = .exactly text → leaf.text = String.ofList text) :
      Yields g d (.raw lexeme kind) [leaf]
  | word {text : List Char} {kind : Kind} {comments : List Node} {leaf : Node}
      (hcomments : ∀ n ∈ comments, n.IsLeaf .comment) (hleaf : leaf.IsLeaf kind)
      (htext : leaf.text = String.ofList text) :
      Yields g d (.word text kind) (comments ++ [leaf])
  | sign {text longer : List Char} {comments : List Node} {leaf : Node}
      (hcomments : ∀ n ∈ comments, n.IsLeaf .comment) (hleaf : leaf.IsLeaf .token)
      (htext : leaf.text = String.ofList text) :
      Yields g d (.sign text longer) (comments ++ [leaf])
  | sameLine : Yields g d .sameLine []
  | newLine : Yields g d .newLine []
  | atEnd {comments : List Node} (hcomments : ∀ n ∈ comments, n.IsLeaf .comment) :
      Yields g d .atEnd comments
  | rule {r : R} {xs : List Node} (h : Yields g d (g r) xs) : Yields g d (.rule r) xs
  | seqNil : Yields g d (.seq []) []
  | seqCons {f : Form R} {fs : List (Form R)} {xs ys : List Node} (hf : Yields g d f xs)
      (hfs : Yields g d (.seq fs) ys) : Yields g d (.seq (f :: fs)) (xs ++ ys)
  | oneOf {f : Form R} {fs : List (Form R)} {xs : List Node} (hmem : f ∈ fs)
      (hf : Yields g d f xs) : Yields g d (.oneOf fs) xs
  | manyNil {f : Form R} : Yields g d (.many f) []
  | manyCons {f : Form R} {xs ys : List Node} (hf : Yields g d f xs)
      (hmore : Yields g d (.many f) ys) : Yields g d (.many f) (xs ++ ys)
  | ahead {f : Form R} : Yields g d (.ahead f) []
  | notAhead {f : Form R} : Yields g d (.notAhead f) []
  | only {test : Dialect → Bool} {f : Form R} {xs : List Node} (htest : test d = true)
      (hf : Yields g d f xs) : Yields g d (.only test f) xs
  | node {kind : Kind} {f : Form R} {xs : List Node} {n : Node} (hf : Yields g d f xs)
      (hn : n.Wraps kind xs) : Yields g d (.node kind f) (xs.takeWhile Node.isComment ++ [n])
  | role {r : Role} {f : Form R} {xs : List Node} (hf : Yields g d f xs) :
      Yields g d (.role r f) (giveRole r xs)
  | first {f : Form R} {steps : List (Step R)} {xs : List Node} (hf : Yields g d f xs) :
      Yields g d (.grow f steps) xs
  | step {f : Form R} {steps : List (Step R)} {kind : Kind} {left : Option Role} {f' : Form R}
      {xs ys : List Node} {n : Node} (hxs : Yields g d (.grow f steps) xs)
      (hmem : .mk kind left f' ∈ steps) (hys : Yields g d f' ys)
      (hn : n.Wraps kind (asLeft left xs ++ ys)) :
      Yields g d (.grow f steps) ((asLeft left xs ++ ys).takeWhile Node.isComment ++ [n])

theorem giveRole_comments {xs : List Node} (r : Role) (h : ∀ n ∈ xs, n.isComment = true) :
    giveRole r xs = xs :=
  (List.map_congr_left fun n hn => if_pos (h n hn)).trans (List.map_id' xs)

theorem asLeft_comments {xs : List Node} (role : Option Role) (h : ∀ n ∈ xs, n.isComment = true) :
    asLeft role xs = xs := by
  cases role with
  | none => rfl
  | some r => exact giveRole_comments r h

theorem asLeft_append (role : Option Role) (xs ys : List Node) :
    asLeft role (xs ++ ys) = asLeft role xs ++ asLeft role ys := by
  cases role with
  | none => rfl
  | some r => exact List.map_append

/-- The role that is given last counts. -/
theorem asLeft_giveRole (role : Option Role) (r : Role) (xs : List Node) :
    asLeft role (giveRole r xs) = asLeft (some (role.getD r)) xs := by
  cases role with
  | none => rfl
  | some r' =>
    refine List.map_map.trans (List.map_congr_left fun n _ => ?_)
    by_cases hn : n.isComment = true
    · simp only [Function.comp_apply, if_pos hn]
    · have hrole : ¬(n.withRole r).isComment = true := hn
      simp only [Function.comp_apply, if_neg hn, if_neg hrole]
      rfl

/-- Whether no comment has a role. -/
def CommentsFree (xs : List Node) : Prop := ∀ n ∈ xs, n.isComment = true → n.role = none

theorem CommentsFree.append {xs ys : List Node} (hx : CommentsFree xs) (hy : CommentsFree ys) :
    CommentsFree (xs ++ ys) :=
  fun n hn => (List.mem_append.mp hn).elim (hx n) (hy n)

theorem CommentsFree.of_role {xs : List Node} (h : ∀ n ∈ xs, n.role = none) : CommentsFree xs :=
  fun n hn _ => h n hn

theorem CommentsFree.singleton {n : Node} (h : n.role = none) : CommentsFree [n] :=
  .of_role fun _ hm => List.mem_singleton.mp hm ▸ h

theorem CommentsFree.giveRole {xs : List Node} (r : Role) (h : CommentsFree xs) :
    CommentsFree (giveRole r xs) := by
  intro n hn hcomment
  obtain ⟨m, hm, rfl⟩ := List.mem_map.mp hn
  by_cases hm' : m.isComment = true
  · rw [if_pos hm']
    exact h m hm hm'
  · rw [if_neg hm'] at hcomment
    exact absurd hcomment hm'

theorem CommentsFree.asLeft {xs : List Node} (left : Option Role) (h : CommentsFree xs) :
    CommentsFree (asLeft left xs) := by
  cases left with
  | none => exact h
  | some r => exact h.giveRole r

theorem CommentsFree.wraps {kind : Kind} {xs : List Node} {n : Node} (h : CommentsFree xs)
    (hn : n.Wraps kind xs) : CommentsFree (xs.takeWhile Node.isComment ++ [n]) := by
  apply CommentsFree.append _ (.singleton hn.role)
  intro m hm
  exact h m ((List.takeWhile_sublist _).subset hm)

theorem Yields.commentsFree {form : Form R} {xs : List Node} (h : Yields g d form xs) :
    CommentsFree xs := by
  induction h with
  | token hc hl | word hc hl | sign hc hl =>
    exact (CommentsFree.of_role fun n hn => (hc n hn).role).append (.singleton hl.role)
  | raw hl => exact .singleton hl.role
  | sameLine | newLine | seqNil | manyNil | ahead | notAhead =>
    exact fun n hn => absurd hn List.not_mem_nil
  | atEnd hc => exact .of_role fun n hn => (hc n hn).role
  | rule _ ih | oneOf _ _ ih | only _ _ ih | first _ ih => exact ih
  | seqCons _ _ ihx ihy | manyCons _ _ ihx ihy => exact ihx.append ihy
  | node _ hn ih => exact ih.wraps hn
  | role _ ih => exact ih.giveRole _
  | step _ _ _ hn ihxs ihys => exact ((ihxs.asLeft _).append ihys).wraps hn

/-- Whether only comments stand between the tokens around a cursor. -/
def Cursor.Gapped (c : Cursor) : Prop := ∀ n ∈ c.comments, n.IsLeaf .comment

theorem isLeaf_cons_comment {comments : List Node} (start : Place) (read : List Char)
    (h : ∀ n ∈ comments, n.IsLeaf .comment) :
    ∀ n ∈ start.leaf .comment read :: comments, n.IsLeaf .comment :=
  List.forall_mem_cons.mpr ⟨⟨rfl, rfl, rfl⟩, h⟩

theorem gapped_skipGap {last p : Place} {gap : Gap} {comments : List Node} {lineBreak : Bool}
    {cs : List Char} (h : ∀ n ∈ comments, n.IsLeaf .comment) :
    (skipGap last gap comments lineBreak p cs).Gapped := by
  fun_induction skipGap last gap comments lineBreak p cs with
  | case1 comments | case3 comments | case11 comments =>
    intro n hn
    exact h n (List.mem_reverse.mp hn)
  | case2 comments lineBreak p start read =>
    intro n hn
    exact isLeaf_cons_comment start read.reverse h n (List.mem_reverse.mp hn)
  | case4 comments lineBreak p c cs _ start read _ ih
  | case6 comments lineBreak p c cs _ start read _ ih =>
    exact ih (isLeaf_cons_comment start _ h)
  | case5 | case7 | case8 | case9 | case10 =>
    rename_i ih
    exact ih h

theorem gapped_ofPlace (p : Place) : (Cursor.ofPlace p).Gapped :=
  gapped_skipGap fun _ hn => absurd hn List.not_mem_nil

variable {c c' : Cursor} {kind : Kind} {xs : List Node}

theorem token_eq_some {read : Option (List Char × List Char)}
    (h : c.token kind read = some (xs, c')) :
    (∃ leaf, leaf.IsLeaf kind ∧ (∀ r ∈ read, leaf.text = String.ofList r.1) ∧
      xs = c.comments ++ [leaf]) ∧ c'.Gapped := by
  cases read with
  | none => cases h
  | some pair =>
    cases h
    exact ⟨⟨_, ⟨rfl, rfl, rfl⟩, fun r hr => by cases hr; rfl, rfl⟩, gapped_ofPlace _⟩

theorem rawToken_eq_some {read : Option (List Char × List Char)}
    (h : c.rawToken kind read = some (xs, c')) :
    (∃ leaf, leaf.IsLeaf kind ∧ (∀ r ∈ read, leaf.text = String.ofList r.1) ∧ xs = [leaf]) ∧
      c'.Gapped := by
  cases read with
  | none => cases h
  | some pair =>
    cases h
    exact ⟨⟨_, ⟨rfl, rfl, rfl⟩, fun r hr => by cases hr; rfl, rfl⟩, gapped_ofPlace _⟩

theorem wrap_eq (kind : Kind) (start stop : Cursor) (read : List Node) :
    ∃ n : Node, n.Wraps kind read ∧
      wrap kind start stop read = read.takeWhile Node.isComment ++ [n] :=
  ⟨_, ⟨rfl, rfl, rfl⟩, rfl⟩

/-- What readings with some fuel are: of a form, and of steps that go on from what was read. -/
structure Sound (g : Rules R) (d : Dialect) (fuel : Nat) : Prop where
  read {form : Form R} {c c' : Cursor} {xs : List Node} (hc : c.Gapped)
    (h : Form.read g d fuel form c = some (xs, c')) : Yields g d form xs ∧ c'.Gapped
  grow {first : Form R} {steps others : List (Step R)} (start : Cursor) {c : Cursor}
    {xs : List Node} (hc : c.Gapped) (hothers : others ⊆ steps)
    (hxs : Yields g d (.grow first steps) xs) :
    Yields g d (.grow first steps) (growFrom g d fuel steps others start xs c).1 ∧
      (growFrom g d fuel steps others start xs c).2.Gapped

variable {fuel : Nat}

theorem raw_eq_some {lexeme : Lexeme}
    (h : c.rawToken kind (lexeme.read c.last.rest) = some (xs, c')) :
    Yields g d (.raw lexeme kind) xs ∧ c'.Gapped := by
  obtain ⟨⟨leaf, hleaf, hread, rfl⟩, hc'⟩ := rawToken_eq_some h
  refine ⟨.raw hleaf fun text htext => ?_, hc'⟩
  subst htext
  rw [Lexeme.read] at h hread
  cases hstrip : Lexeme.stripPrefix? text c.last.rest with
  | none =>
    rw [hstrip] at h
    cases h
  | some rest =>
    rw [hstrip] at hread
    exact hread _ rfl

theorem readWord_eq_some {text : List Char} (hc : c.Gapped)
    (h : readWord text kind c = some (xs, c')) : Yields g d (.word text kind) xs ∧ c'.Gapped := by
  unfold readWord at h
  split at h
  · split at h
    · obtain ⟨⟨leaf, hleaf, htext, rfl⟩, hc'⟩ := token_eq_some h
      exact ⟨.word hc hleaf (htext _ rfl), hc'⟩
    · cases h
  · cases h

theorem readSign_eq_some {text longer : List Char} (hc : c.Gapped)
    (h : readSign text longer c = some (xs, c')) :
    Yields g d (.sign text longer) xs ∧ c'.Gapped := by
  unfold readSign at h
  split at h
  · split at h
    · cases h
    · obtain ⟨⟨leaf, hleaf, htext, rfl⟩, hc'⟩ := token_eq_some h
      exact ⟨.sign hc hleaf (htext _ rfl), hc'⟩
  · cases h

section Parts

variable {f : Form R} {fs : List (Form R)}

theorem Sound.read_seq (hs : Sound g d fuel) (hc : c.Gapped)
    (h : Form.read g d (fuel + 1) (.seq fs) c = some (xs, c')) :
    Yields g d (.seq fs) xs ∧ c'.Gapped := by
  cases fs with
  | nil =>
    rw [Form.read] at h
    cases h
    exact ⟨.seqNil, hc⟩
  | cons f fs =>
    rw [Form.read] at h
    split at h
    · cases h
    next hf =>
      obtain ⟨hyield, hgap⟩ := hs.read hc hf
      split at h
      · cases h
      next hfs =>
        cases h
        exact (hs.read hgap hfs).imp (.seqCons hyield) id

theorem Sound.read_oneOf (hs : Sound g d fuel) (hc : c.Gapped)
    (h : Form.read g d (fuel + 1) (.oneOf fs) c = some (xs, c')) :
    Yields g d (.oneOf fs) xs ∧ c'.Gapped := by
  cases fs with
  | nil =>
    rw [Form.read] at h
    cases h
  | cons f fs =>
    rw [Form.read] at h
    split at h
    next =>
      -- The forms behind the first one are a choice of their own.
      obtain ⟨hyield, hgap⟩ := hs.read hc h
      cases hyield with
      | oneOf hmem hf => exact ⟨.oneOf (List.mem_cons_of_mem f hmem) hf, hgap⟩
    next hf => exact (hs.read hc h).imp (.oneOf List.mem_cons_self) id

theorem Sound.read_many (hs : Sound g d fuel) (hc : c.Gapped)
    (h : Form.read g d (fuel + 1) (.many f) c = some (xs, c')) :
    Yields g d (.many f) xs ∧ c'.Gapped := by
  rw [Form.read] at h
  split at h
  · cases h
    exact ⟨.manyNil, hc⟩
  next ys c'' hf =>
    obtain ⟨hyield, hgap⟩ := hs.read hc hf
    split at h
    · cases h
      exact ⟨.manyNil, hc⟩
    -- If the fuel ends behind the first round, that round is all.
    · split at h
      · cases h
        refine ⟨?_, hgap⟩
        rw [← List.append_nil xs]
        exact .manyCons hyield .manyNil
      next hmore =>
        cases h
        exact (hs.read hgap hmore).imp (.manyCons hyield) id

theorem Sound.read_node (hs : Sound g d fuel) (hc : c.Gapped)
    (h : Form.read g d (fuel + 1) (.node kind f) c = some (xs, c')) :
    Yields g d (.node kind f) xs ∧ c'.Gapped := by
  rw [Form.read] at h
  split at h
  · cases h
  next hf =>
    cases h
    obtain ⟨n, hn, heq⟩ := wrap_eq kind c _ _
    rw [heq]
    exact (hs.read hc hf).imp (.node · hn) id

theorem Sound.read_grow (hs : Sound g d fuel) {steps : List (Step R)} (hc : c.Gapped)
    (h : Form.read g d (fuel + 1) (.grow f steps) c = some (xs, c')) :
    Yields g d (.grow f steps) xs ∧ c'.Gapped := by
  rw [Form.read] at h
  split at h
  · cases h
  next ys c'' hf =>
    obtain ⟨hyield, hgap⟩ := hs.read hc hf
    have hgrown := hs.grow c hgap (List.Subset.refl steps) (.first hyield)
    rwa [Option.some.inj h] at hgrown

end Parts

theorem Sound.read_succ (hs : Sound g d fuel) {form : Form R} (hc : c.Gapped)
    (h : Form.read g d (fuel + 1) form c = some (xs, c')) : Yields g d form xs ∧ c'.Gapped := by
  cases form with
  | token lexeme kind =>
    rw [Form.read] at h
    obtain ⟨⟨leaf, hleaf, -, rfl⟩, hc'⟩ := token_eq_some h
    exact ⟨.token hc hleaf, hc'⟩
  | raw lexeme kind =>
    rw [Form.read] at h
    exact raw_eq_some h
  | word text kind =>
    rw [Form.read] at h
    exact readWord_eq_some hc h
  | sign text longer =>
    rw [Form.read] at h
    exact readSign_eq_some hc h
  | sameLine =>
    rw [Form.read] at h
    split at h
    · cases h
    · cases h
      exact ⟨.sameLine, hc⟩
  | newLine =>
    rw [Form.read] at h
    split at h
    · cases h
      exact ⟨.newLine, hc⟩
    · cases h
  | atEnd =>
    rw [Form.read] at h
    split at h
    · cases h
      exact ⟨.atEnd hc, hc⟩
    · cases h
  | rule r =>
    rw [Form.read] at h
    exact (hs.read hc h).imp .rule id
  | seq fs => exact hs.read_seq hc h
  | oneOf fs => exact hs.read_oneOf hc h
  | many f => exact hs.read_many hc h
  | ahead f =>
    rw [Form.read] at h
    split at h
    · cases h
    · cases h
      exact ⟨.ahead, hc⟩
  | notAhead f =>
    rw [Form.read] at h
    split at h
    · cases h
      exact ⟨.notAhead, hc⟩
    · cases h
  | only test f =>
    rw [Form.read] at h
    split at h
    next htest => exact (hs.read hc h).imp (.only htest) id
    · cases h
  | node kind f => exact hs.read_node hc h
  | role r f =>
    rw [Form.read] at h
    split at h
    · cases h
    next hf =>
      cases h
      exact (hs.read hc hf).imp .role id
  | grow first steps => exact hs.read_grow hc h

theorem Sound.grow_succ (hs : Sound g d fuel) {first : Form R} {steps others : List (Step R)}
    (start : Cursor) (hc : c.Gapped) (hothers : others ⊆ steps)
    (hxs : Yields g d (.grow first steps) xs) :
    Yields g d (.grow first steps) (growFrom g d (fuel + 1) steps others start xs c).1 ∧
      (growFrom g d (fuel + 1) steps others start xs c).2.Gapped := by
  cases others with
  | nil =>
    rw [growFrom]
    exact ⟨hxs, hc⟩
  | cons step others =>
    obtain ⟨kind, left, f⟩ := step
    obtain ⟨hstep, hothers⟩ := List.cons_subset.mp hothers
    unfold growFrom
    dsimp only
    split
    next => exact hs.grow start hc hothers hxs
    next hf =>
      obtain ⟨hys, hgap⟩ := hs.read hc hf
      split
      · exact ⟨hxs, hc⟩
      · apply hs.grow start hgap (List.Subset.refl steps)
        exact .step hxs hstep hys ⟨rfl, rfl, rfl⟩

theorem sound (fuel : Nat) : Sound g d fuel := by
  induction fuel with
  | zero =>
    constructor
    · intro form c c' xs _ h
      rw [Form.read] at h
      cases h
    · intro first steps others start c xs hc _ hxs
      rw [growFrom]
      exact ⟨hxs, hc⟩
  | succ fuel ih => exact ⟨ih.read_succ, fun start => ih.grow_succ start⟩

theorem read_yields {form : Form R} (hc : c.Gapped)
    (h : Form.read g d fuel form c = some (xs, c')) : Yields g d form xs :=
  ((sound fuel).read hc h).1

end Grammar

end CodeAtlas
