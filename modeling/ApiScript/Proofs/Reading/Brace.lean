import ApiScript.Proofs.Ladder.Alone
import ApiScript.Proofs.Shape.Ahead

set_option autoImplicit false
set_option relaxedAutoImplicit false

/-!
Braces: an object is told from a block by two lexemes behind the brace, and they tell it rightly.
The first field of an object begins with a key and a colon, and no statement does, whatever form it
has.
-/

namespace ApiScript.Grammar

def State.atKey (s : State) : Bool := s.atIdentifier || s.atString

variable {inner : Inner} {s t u : State}

section Key

theorem State.current?_of_atKey (h : s.atKey = true) :
    (∃ text, s.current? = some (.identifier text)) ∨
    ∃ kind raw, kind ≠ .bytes ∧ s.current? = some (.string kind raw) := by
  rcases Bool.or_eq_true_iff.1 h with h | h
  · unfold State.atIdentifier at h
    split at h
    · exact .inl ⟨_, ‹_›⟩
    · cases h
  · unfold State.atString at h
    split at h
    · exact .inr ⟨.interpolated, _, by decide, ‹_›⟩
    · exact .inr ⟨.simple, _, by decide, ‹_›⟩
    · cases h

theorem State.atObjectStart_iff : s.atObjectStart = true ↔ s.sees (.symbol .leftBrace) = true ∧
    s.advance.atKey = true ∧ s.advance.advance.sees (.symbol .colon) = true := by
  have hkey : s.advance.current? = s.peek? 1 := s.peek?_advance 0
  have hcolon : s.advance.advance.current? = s.peek? 2 := by
    rw [← s.peek?_advance 1]
    exact s.advance.peek?_advance 0
  unfold State.atObjectStart State.atKey State.atIdentifier State.atString
  rw [hkey, State.sees, State.sees, hcolon, Bool.and_eq_true, Bool.and_eq_true, and_assoc]
  refine and_congr_right fun _ => and_congr_left fun _ => ?_
  cases s.peek? 1 with
  | none => simp
  | some l =>
    cases l with
    | string kind raw => cases kind <;> simp
    | _ => simp

theorem State.sees_of_after (h : t.after = s.after) (l : Lexeme) : t.sees l = s.sees l := by
  simp only [State.sees, State.current?, State.peek?, h]

private theorem after_of_string {expected : Expectation} {l : StringLiteral}
    (h : Reads (string inner expected) s l t) :
    t.after = s.advance.after := by
  rcases reads_string h with ⟨_, _, u, _, _, hparts, _, rfl⟩ | ⟨_, _, _, _, _, rfl⟩
  · have hafter := (stringParts_moves hparts).after_nil
    cases hs : s.after with
    | nil =>
      rw [hs] at hafter
      simp [State.advance, hs, hafter]
    | cons next rest =>
      rw [hs] at hafter
      rw [State.after_advance hafter, State.after_advance hs]
  · rfl

theorem after_of_literal_key {kind : StringClass} {raw : String} (hkind : kind ≠ .bytes)
    (hs : s.current? = some (.string kind raw)) {l : Literal} (h : Reads (literal inner) s l t) :
    l.integer? = none ∧ t.after = s.advance.after := by
  have hbehind : s.behindSign = s := by
    unfold State.behindSign
    rw [State.atNegativeNumber_of_current? hs (by simp)]
    rfl
  rcases reads_literal h with ⟨string, rfl, hstring⟩ | ⟨found, hfound, hdenotes, -⟩
  · rw [hbehind] at hstring
    exact ⟨rfl, after_of_string hstring⟩
  · rw [hbehind, hs] at hfound
    cases hfound
    cases hdenotes
    exact absurd rfl hkind

private theorem after_of_primary_key (hkey : s.atKey = true) {e : Expr}
    (h : Reads (primary inner) s e t) :
    e.isEmission = false ∧ t.after = s.advance.after := by
  unfold primary at h
  rw [reads_get_bind] at h
  rcases State.current?_of_atKey hkey with ⟨text, hs⟩ | ⟨kind, raw, hkind, hs⟩
  · simp only [hs, reads_bind, reads_name, reads_pure] at h
    obtain ⟨n, u, ⟨_, _, rfl⟩, rfl, rfl⟩ := h
    exact ⟨rfl, rfl⟩
  · simp only [hs, reads_ite, reads_unexpected, and_false, or_false] at h
    obtain ⟨l, u, hl, hrest⟩ := reads_bind.1 h.2
    obtain ⟨hinteger, hafter⟩ := after_of_literal_key hkind hs hl
    rw [reads_get_bind] at hrest
    simp only [hinteger, Option.isSome_none, Bool.false_eq_true, false_and, ↓reduceIte,
      reads_pure] at hrest
    obtain ⟨rfl, rfl⟩ := hrest
    exact ⟨rfl, hafter⟩

end Key

section Expressions

theorem primary_of_pipe (hs : unaryOp? s = none) {e : Expr} (h : Reads (pipe inner) s e t) :
    ∃ e' u, Reads (primary inner) s e' u := by
  obtain ⟨left, u, hleft, -⟩ := reads_bind.1 h
  unfold climb at hleft
  obtain ⟨e', v, hunary, -⟩ := reads_bind.1 hleft
  unfold unary at hunary
  rw [reads_get_bind, hs] at hunary
  obtain ⟨first, w, hfirst, -⟩ := reads_bind.1 hunary
  exact ⟨first, w, hfirst⟩

variable [∀ e, Advances (inner e)]

/-- Where nothing binds what is in front of it, a key is all of an expression. -/
theorem after_of_pipe_loose (hkey : s.atKey = true)
    (hend : ∀ l ∈ s.advance.current?, l.tightness < 1) {e : Expr} (h : Reads (pipe inner) s e t) :
    t.after = s.advance.after := by
  have hunary : unaryOp? s = none := by
    unfold unaryOp?
    rcases State.current?_of_atKey hkey with ⟨_, hs⟩ | ⟨_, _, _, hs⟩
    · rw [hs]
    · rw [hs]
  obtain ⟨first, u, hfirst⟩ := primary_of_pipe hunary h
  obtain ⟨hemission, hafter⟩ := after_of_primary_key hkey hfirst
  have hcurrent : u.current? = s.advance.current? := by
    simp only [State.current?, State.peek?, hafter]
  have halone : Reads (pipe inner) s first u :=
    reads_pipe_primary ⟨hfirst, hemission⟩ (hcurrent ▸ hend)
  cases h.symm.trans halone
  exact hafter

private theorem after_of_pipe_key (hkey : s.atKey = true)
    (hcolon : s.advance.sees (.symbol .colon) = true) {e : Expr} (h : Reads (pipe inner) s e t) :
    t.after = s.advance.after := by
  refine after_of_pipe_loose hkey ?_ h
  rw [State.current?_of_sees hcolon]
  rintro l ⟨⟩
  decide

omit [∀ e, Advances (inner e)] in
private theorem not_pipe_colon (hcolon : s.sees (.symbol .colon) = true) {e : Expr} :
    ¬Reads (pipe inner) s e t := by
  intro h
  have hs := State.current?_of_sees hcolon
  have hunary : unaryOp? s = none := by
    unfold unaryOp?
    rw [hs]
  obtain ⟨first, u, hfirst⟩ := primary_of_pipe hunary h
  have hliteral : s.atLiteral = false := by
    simp [State.atLiteral, hs, Lexeme.isLiteral, State.atNegativeNumber_of_current? hs]
  unfold primary at hfirst
  rw [reads_get_bind] at hfirst
  simp only [hs, hliteral, Bool.false_eq_true, ↓reduceIte, reads_unexpected] at hfirst

end Expressions

section Statements

private theorem expression_of_item (hs : ∀ k, s.current? ≠ some (.keyword k)) {i : Item}
    (h : Reads (item inner) s i t) :
    ∃ e, Reads (inner .expression) s e t := by
  obtain ⟨d, u, hd, hrest⟩ := reads_bind.1 h
  unfold declaration? at hd
  rw [reads_get_bind] at hd
  split at hd
  case h_6 =>
    obtain ⟨rfl, rfl⟩ := reads_pure.1 hd
    obtain ⟨e, v, he, hv⟩ := reads_bind.1 hrest
    obtain ⟨-, rfl⟩ := reads_pure.1 hv
    exact ⟨e, he⟩
  all_goals exact absurd ‹s.current? = _› (hs _)

variable {limit room : Nat}

private theorem pipe_of_item (hs : ∀ k, s.current? ≠ some (.keyword k)) {i : Item}
    (h : Reads (item (enter limit room)) s i t) :
    ∃ room e, Reads (pipe (enter limit room)) s e t := by
  obtain ⟨e, he⟩ := expression_of_item hs h
  cases room with
  | zero => cases he
  | succ room => exact ⟨room, e, he⟩

private theorem not_item_colon (hcolon : s.sees (.symbol .colon) = true) {i : Item} :
    ¬Reads (item (enter limit room)) s i t := by
  intro h
  have hs := State.current?_of_sees hcolon
  obtain ⟨_, e, he⟩ := pipe_of_item (by simp [hs]) h
  exact not_pipe_colon hcolon he

private theorem after_of_item_key (hkey : s.atKey = true)
    (hcolon : s.advance.sees (.symbol .colon) = true) {i : Item}
    (h : Reads (item (enter limit room)) s i t) : t.after = s.advance.after := by
  have hs : ∀ k, s.current? ≠ some (.keyword k) := by
    intro k hk
    rcases State.current?_of_atKey hkey with ⟨_, hs⟩ | ⟨_, _, _, hs⟩
    · cases hs.symm.trans hk
    · cases hs.symm.trans hk
  obtain ⟨_, e, he⟩ := pipe_of_item hs h
  exact after_of_pipe_key hkey hcolon he

private abbrev Statements (limit room : Nat) : State → List Item → State → Prop :=
  Listed .block atBlockEnd (item (enter limit room))

theorem State.not_atEnd_of_current? {l : Lexeme} (hs : s.current? = some l) : s.atEnd = false := by
  rw [State.atEnd, List.isEmpty_eq_false_iff]
  intro hnil
  simp [State.current?, State.peek?, hnil] at hs

theorem atBlockEnd_of_current? {l : Lexeme} (hs : s.current? = some l)
    (hl : l ≠ .symbol .rightBrace) :
    atBlockEnd s = false := by
  have hbrace : s.sees (.symbol .rightBrace) = false := by
    rw [State.sees, hs, beq_eq_false_iff_ne]
    exact fun h => hl (Option.some.inj h)
  rw [atBlockEnd, hbrace, State.not_atEnd_of_current? hs]
  rfl

private theorem Statements.reports_colon (hcolon : s.sees (.symbol .colon) = true) {is : List Item}
    (h : Statements limit room s is t) : t.log ≠ s.log := by
  have hend : atBlockEnd s = false :=
    atBlockEnd_of_current? (State.current?_of_sees hcolon) (by decide)
  cases h with
  | done h =>
    rw [hend] at h
    cases h
  | read _ ha _ => exact (not_item_colon hcolon ha).elim
  | resume _ hd rest => exact Listed.resumed hd rest

private theorem Statements.reports_key (hkey : s.atKey = true)
    (hcolon : s.advance.sees (.symbol .colon) = true) {is : List Item}
    (h : Statements limit room s is t) : t.log ≠ s.log := by
  have hend : atBlockEnd s = false := by
    rcases State.current?_of_atKey hkey with ⟨_, hs⟩ | ⟨_, _, _, hs⟩
    · exact atBlockEnd_of_current? hs (by simp)
    · exact atBlockEnd_of_current? hs (by simp)
  cases h with
  | done h =>
    rw [hend] at h
    cases h
  | @read _ u _ _ _ _ ha rest =>
    intro heq
    have hsees : u.sees (.symbol .colon) = true := by
      rwa [State.sees_of_after (after_of_item_key hkey hcolon ha)]
    have hfront : s.log <+: u.log := (Advances.reads ha).log
    have hbehind : u.log <+: t.log := rest.reaches.log
    rw [heq] at hbehind
    have hkept : u.log = s.log := hbehind.eq_of_length_le hfront.length_le
    exact Statements.reports_colon hsees rest (heq.trans hkept.symm)
  | resume _ hd rest => exact Listed.resumed hd rest

/-- A block that is read without a report does not begin like an object. -/
theorem atObjectStart_of_block {b : Block} (h : Reads (itemBlock (enter limit room)) s b t)
    (hlog : t.log = s.log) :
    s.atObjectStart = false := by
  rw [Bool.eq_false_iff]
  intro hstart
  obtain ⟨-, hkey, hcolon⟩ := State.atObjectStart_iff.1 hstart
  simp only [itemBlock, block, reads_bind, reads_expect, reads_close, reads_pure,
    reads_statements atBlockEnd_of_atEnd] at h
  obtain ⟨_, _, ⟨_, rfl, rfl⟩, is, u, his, _, _, ⟨_, rfl, rfl⟩, rfl, rfl⟩ := h
  rw [State.log_advance] at hlog
  refine Statements.reports_key hkey hcolon his ?_
  rw [hlog, State.log_advance]

end Statements

section Objects

theorem key_of_field {f : Field} (h : Reads (field inner) s f t) :
    s.atKey = true ∧ s.advance.sees (.symbol .colon) = true := by
  simp only [field, reads_bind, reads_get, reads_ite, reads_name, reads_expect, reads_pure,
    and_assoc, exists_and_left, exists_eq_left] at h
  rcases h with ⟨hidentifier, _, _, _, hcolon, -⟩ | ⟨_, l, u, hl, hcolon, -⟩
  · refine ⟨?_, hcolon⟩
    rw [State.atKey, hidentifier]
    rfl
  · rw [State.sees_of_after (after_of_string hl)] at hcolon
    refine ⟨?_, hcolon⟩
    unfold State.atKey State.atIdentifier State.atString
    rcases reads_string hl with ⟨_, _, _, hs, -⟩ | ⟨_, _, hs, -⟩
    · rw [hs]
      rfl
    · rw [hs]
      rfl

variable [∀ e, Advances (inner e)]

theorem atObjectStart_of_object {guessed : Bool} {o : Object}
    (h : Reads (object inner guessed) s o t) (hfields : o.fields ≠ []) :
    s.atObjectStart = true := by
  obtain ⟨u, hbrace, hread, -⟩ := reads_object.1 h
  cases hread' : o.fields with
  | nil => exact absurd hread' hfields
  | cons f fs =>
    rw [hread'] at hread
    cases hread with
    | more _ hf _ _ =>
      obtain ⟨hkey, hcolon⟩ := key_of_field hf
      exact State.atObjectStart_iff.2 ⟨hbrace, hkey, hcolon⟩

theorem atOptionalObject_of_object {guessed : Bool} {o : Object}
    (h : Reads (object inner guessed) s o t) :
    s.atOptionalObject = true := by
  rw [State.atOptionalObject, Bool.or_eq_true_iff]
  obtain ⟨u, hbrace, hread, -, hclose, -⟩ := reads_object.1 h
  by_cases hfields : o.fields = []
  · right
    rw [hfields] at hread
    cases hread
    rw [Bool.and_eq_true_iff, beq_iff_eq, ← s.peek?_advance 0]
    exact ⟨hbrace, State.current?_of_sees hclose⟩
  · left
    exact atObjectStart_of_object h hfields

private theorem reads_object_guessed {guessed guessed' : Bool} {o : Object}
    (h : Reads (object inner guessed) s o t) :
    Reads (object inner guessed') s o t := by
  obtain ⟨u, hbrace, hread, -, hclose, hrest⟩ := reads_object.1 h
  exact reads_object.2 ⟨u, hbrace, hread, fun hguessed => hguessed.2.1 hclose, hclose, hrest⟩

end Objects

/-- Two lexemes behind a brace tell rightly what it opens. Where a block is read without a report
the brace is not taken for that of an object, and so the block is read. Where an object is read the
brace is one that an object may follow, and if the object has fields then it is taken for that of an
object, and so the object is read. -/
theorem brace_told (limit room : Nat) (s t : State) :
    (∀ b, Reads (itemBlock (enter limit room)) s b t → t.log = s.log →
      s.atObjectStart = false ∧ Reads (braced (enter limit room)) s (.block b) t) ∧
    ∀ guessed o, Reads (object (enter limit room) guessed) s o t →
      (s.atOptionalObject = true ∧ Reads (optionalObject (enter limit room)) s (some o) t) ∧
        (o.fields ≠ [] → s.atObjectStart = true ∧
        Reads (braced (enter limit room)) s (.object o) t) := by
  refine ⟨?_, ?_⟩
  · intro b hb hlog
    have hstart := atObjectStart_of_block hb hlog
    refine ⟨hstart, ?_⟩
    unfold braced
    rw [reads_get_bind, hstart]
    exact reads_bind.2 ⟨b, t, hb, reads_pure.2 ⟨rfl, rfl⟩⟩
  · intro guessed o ho
    have hoptional := atOptionalObject_of_object ho
    refine ⟨⟨hoptional, ?_⟩, ?_⟩
    · unfold optionalObject
      rw [reads_get_bind, hoptional]
      exact reads_bind.2 ⟨o, t, reads_object_guessed ho, reads_pure.2 ⟨rfl, rfl⟩⟩
    · intro hfields
      have hstart := atObjectStart_of_object ho hfields
      refine ⟨hstart, ?_⟩
      unfold braced
      rw [reads_get_bind, hstart]
      exact reads_bind.2 ⟨o, t, reads_object_guessed ho, reads_pure.2 ⟨rfl, rfl⟩⟩

/-- A block in which an object stands behind a string, and an object in which a block does. -/
theorem brace_told_of_nested :
    (∃ b t, Reads (itemBlock (enter 8 8)) (State.ofString "\x7b \"k\" \x7ba: b\x7d \x7d" 0) b t ∧
      (State.ofString "\x7b \"k\" \x7ba: b\x7d \x7d" 0).atObjectStart = false ∧
      Reads (braced (enter 8 8)) (State.ofString "\x7b \"k\" \x7ba: b\x7d \x7d" 0) (.block b) t) ∧
    ∃ o t, (Reads (object (enter 8 8) false) (State.ofString "\x7b \"k\": \x7ba b\x7d \x7d" 0) o t ∧
      o.fields ≠ []) ∧
      (State.ofString "\x7b \"k\": \x7ba b\x7d \x7d" 0).atOptionalObject = true ∧
      (State.ofString "\x7b \"k\": \x7ba b\x7d \x7d" 0).atObjectStart = true ∧
      Reads (braced (enter 8 8)) (State.ofString "\x7b \"k\": \x7ba b\x7d \x7d" 0)
        (.object o) t := by
  constructor
  · have hrun : (match itemBlock (enter 8 8) (State.ofString "\x7b \"k\" \x7ba: b\x7d \x7d" 0) with
        | .ok _ t => decide (t.log = (State.ofString "\x7b \"k\" \x7ba: b\x7d \x7d" 0).log)
        | .error _ _ => false) = true := by
      decide +kernel
    split at hrun
    · rename_i b t hb
      exact ⟨b, t, hb, (brace_told 8 8 _ t).1 b hb (of_decide_eq_true hrun)⟩
    · cases hrun
  · have hrun :
        (match object (enter 8 8) false (State.ofString "\x7b \"k\": \x7ba b\x7d \x7d" 0) with
        | .ok o _ => !o.fields.isEmpty
        | .error _ _ => false) = true := by
      decide +kernel
    split at hrun
    · rename_i o t ho
      have hfields : o.fields ≠ [] := by simpa using hrun
      obtain ⟨⟨hoptional, -⟩, htold⟩ := (brace_told 8 8 _ t).2 false o ho
      exact ⟨o, t, ⟨ho, hfields⟩, hoptional, htold hfields⟩
    · cases hrun

end ApiScript.Grammar
