import ApiScript.Proofs.Reading.Forward

set_option autoImplicit false
set_option relaxedAutoImplicit false
set_option synthInstance.maxSize 2000

/-!
Statements and expressions leave a token behind whenever they are read, and so does each round of
the loops that read them.
-/

namespace ApiScript.Grammar

theorem reads_decoded {α : Type} {r : Except LexicalError α} {s t : State} {a : α} :
    Reads (decoded r) s a t ↔ r = .ok a ∧ t = s := by
  cases r with
  | ok value => simp only [decoded, reads_pure, Except.ok.injEq, @eq_comm _ value]
  | error e => simp only [decoded, reads_throw, reduceCtorEq, false_and]

section Readers

variable {inner : Inner} {s t : State}

theorem embedded_moves {source : String} {offset : Nat} {e : Expr}
    (h : Reads (embedded inner source offset) s e t) :
    Moves s [] t := by
  unfold embedded at h
  dsimp only at h
  split at h
  · simp only [reads_bind, reads_throw, and_false, exists_false] at h
  · split at h
    · simp only [reads_bind, reads_modify, reads_pure, exists_const, exists_eq_left] at h
      rw [h.2]
      exact .report _ _
    · simp only [reads_bind, reads_throw, and_false, exists_false] at h

theorem stringParts_moves {segments : List Quoted.Segment} {parts : List StringPart}
    (h : Reads (stringParts inner segments) s parts t) : Moves s [] t := by
  induction segments generalizing s parts with
  | nil =>
    obtain ⟨_, rfl⟩ := reads_pure.1 h
    exact .refl _
  | cons segment segments ih =>
    cases segment with
    | text text =>
      simp only [stringParts, reads_bind, reads_pure] at h
      obtain ⟨rest, u, hu, _, rfl⟩ := h
      exact ih hu
    | code source offset =>
      simp only [stringParts, reads_bind, reads_pure] at h
      obtain ⟨e, u, he, rest, v, hv, _, rfl⟩ := h
      exact (embedded_moves he).trans (ih hv)

theorem Moves.current? (h : Moves s [] t) : t.current? = s.current? := by
  simp only [State.current?, State.peek?, h.after, List.nil_append]

theorem Moves.after_nil (h : Moves s [] t) : t.after = s.after := h.after.symm

/-- A string is one token; code embedded in it is read beside it. -/
theorem reads_string {expected : Expectation} {l : StringLiteral}
    (h : Reads (string inner expected) s l t) :
    (∃ raw segments u, s.current? = some (.string .interpolated raw) ∧
      Quoted.split raw s.currentSpan = .ok segments ∧
      Reads (stringParts inner segments) s l.parts u ∧
      l = ⟨.double, l.parts, s.currentSpan⟩ ∧ t = u.advance) ∨
    ∃ raw text, s.current? = some (.string .simple raw) ∧
      Quoted.decodeSimple raw s.currentSpan = .ok text ∧
      l = ⟨.single, if text.isEmpty then [] else [.text text], s.currentSpan⟩ ∧ t = s.advance := by
  simp only [string, reads_bind, reads_get, and_assoc, exists_and_left, exists_eq_left] at h
  split at h
  · rename_i raw hs
    simp only [reads_bind, reads_decoded, reads_advance, reads_pure, and_assoc, exists_and_left,
      exists_eq_left, exists_const] at h
    obtain ⟨segments, hsplit, parts, u, hu, rfl, rfl⟩ := h
    exact .inl ⟨raw, segments, u, hs, hsplit, hu, rfl, rfl⟩
  · rename_i raw hs
    simp only [reads_bind, reads_decoded, reads_advance, reads_pure, and_assoc, exists_and_left,
      exists_eq_left, exists_const] at h
    obtain ⟨text, hdecode, rfl, rfl⟩ := h
    exact .inr ⟨raw, text, hs, hdecode, rfl, rfl⟩
  · exact (reads_unexpected.1 h).elim

instance (expected : Expectation) : Consumes (string inner expected) where
  shorter h := by
    rcases reads_string h with ⟨raw, segments, u, hs, _, hu, _, rfl⟩ | ⟨raw, text, hs, _, _, rfl⟩
    · have hm := stringParts_moves hu
      rw [← hm.after_nil]
      exact State.advance_shorter (hm.current?.trans hs)
    · exact State.advance_shorter hs

def State.behindSign (s : State) : State := if s.atNegativeNumber then s.advance else s

def State.sign (s : State) : String := if s.atNegativeNumber then "-" else ""

/-- What a literal is told by: the token behind its sign, and the value it decodes to. -/
inductive Denotes (sign : String) (span : Span) : Lexeme → Literal → Prop
  | integer {raw : String} {value : Int} (h : Numeral.integer (sign ++ raw) span = .ok value) :
    Denotes sign span (.number .integer raw) (.integer span (sign ++ raw) value)
  | float {raw : String} {value : Binary64} (h : Numeral.float (sign ++ raw) span = .ok value) :
    Denotes sign span (.number .float raw) (.float span (sign ++ raw) value)
  | duration {raw : String} {value : Binary64} {unit : DurationUnit}
    (h : Numeral.duration raw span = .ok (value, unit)) :
    Denotes sign span (.number .duration raw) (.duration span raw value unit)
  | size {raw : String} {value : Binary64} {unit : SizeUnit}
    (h : Numeral.size raw span = .ok (value, unit)) :
    Denotes sign span (.number .size raw) (.size span raw value unit)
  | bytes {raw : String} {value : List UInt8} (h : Quoted.decodeBytes raw span = .ok value) :
    Denotes sign span (.string .bytes raw) (.bytes span value)
  | true_ : Denotes sign span (.keyword .true_) (.bool span true)
  | false_ : Denotes sign span (.keyword .false_) (.bool span false)
  | null : Denotes sign span (.keyword .null) (.null span)

theorem reads_literal {l : Literal} (h : Reads (literal inner) s l t) :
    (∃ string, l = .string string ∧ Reads (Grammar.string inner .literal) s.behindSign string t) ∨
      ∃ found, s.behindSign.current? = some found ∧
        Denotes s.sign (s.currentSpan.merge s.behindSign.currentSpan) found l ∧
        t = s.behindSign.advance := by
  simp only [literal, reads_bind, reads_get, reads_ite, reads_advance, and_assoc, exists_and_left,
    exists_eq_left, exists_const] at h
  rcases h with ⟨hsign, h⟩ | ⟨hsign, h⟩
  all_goals
    simp only [State.behindSign, State.sign, hsign, ↓reduceIte, Bool.false_eq_true] at h ⊢
    split at h
    all_goals simp only [reads_bind, reads_decoded, reads_advance, reads_pure, reads_unexpected,
    and_assoc, exists_and_left, exists_eq_left, exists_const] at h
    · obtain ⟨value, hvalue, rfl, rfl⟩ := h
      exact .inr ⟨_, ‹_›, .integer hvalue, rfl⟩
    · obtain ⟨value, hvalue, rfl, rfl⟩ := h
      exact .inr ⟨_, ‹_›, .float hvalue, rfl⟩
    · obtain ⟨⟨value, unit⟩, hvalue, rfl, rfl⟩ := h
      exact .inr ⟨_, ‹_›, .duration hvalue, rfl⟩
    · obtain ⟨⟨value, unit⟩, hvalue, rfl, rfl⟩ := h
      exact .inr ⟨_, ‹_›, .size hvalue, rfl⟩
    · obtain ⟨value, hvalue, rfl, rfl⟩ := h
      exact .inr ⟨_, ‹_›, .bytes hvalue, rfl⟩
    · obtain ⟨string, _, hstring, rfl, rfl⟩ := h
      exact .inl ⟨string, rfl, hstring⟩
    · obtain ⟨rfl, rfl⟩ := h
      exact .inr ⟨_, ‹_›, .true_, rfl⟩
    · obtain ⟨rfl, rfl⟩ := h
      exact .inr ⟨_, ‹_›, .false_, rfl⟩
    · obtain ⟨rfl, rfl⟩ := h
      exact .inr ⟨_, ‹_›, .null, rfl⟩

theorem reads_literal_of_denotes {found : Lexeme} {l : Literal}
    (hs : s.behindSign.current? = some found)
    (h : Denotes s.sign (s.currentSpan.merge s.behindSign.currentSpan) found l) :
    Reads (literal inner) s l s.behindSign.advance := by
  have hadvance {u : State} : Reads (do advance; return l) u l u.advance :=
    reads_bind.2 ⟨(), _, reads_advance.2 rfl, reads_pure.2 ⟨rfl, rfl⟩⟩
  simp only [literal, reads_bind, reads_get, reads_ite, reads_advance, and_assoc, exists_and_left,
    exists_eq_left, exists_const]
  cases hsign : s.atNegativeNumber
  all_goals
    simp only [State.behindSign, State.sign, hsign, ↓reduceIte, Bool.false_eq_true, true_and,
    false_and, or_false, false_or, not_true_eq_false, not_false_eq_true] at hs h ⊢
    rw [hs]
    cases h with
    | true_ | false_ | null => exact hadvance
    | integer hvalue | float hvalue | duration hvalue | size hvalue | bytes hvalue =>
      exact reads_bind.2 ⟨_, _, reads_decoded.2 ⟨hvalue, rfl⟩, hadvance⟩

theorem State.behindSign_reaches (s : State) : Reaches s s.behindSign := by
  unfold State.behindSign
  split
  · exact .advance s
  · exact .refl s

instance : Consumes (literal inner) where
  shorter {s t l} h := by
    refine Nat.lt_of_lt_of_le ?_ s.behindSign_reaches.length_le
    rcases reads_literal h with ⟨string, _, hstring⟩ | ⟨found, hs, _, rfl⟩
    · exact Consumes.shorter hstring
    · exact State.advance_shorter hs

variable [∀ e, Advances (inner e)]

instance : Consumes (field inner) := by
  unfold field
  dsimp only
  infer_instance

instance (guessed : Bool) : Consumes (object inner guessed) := by
  unfold object
  infer_instance

instance (statement : Parser Item) [Advances statement] : Consumes (block statement) := by
  unfold block
  infer_instance

instance : Consumes (conditional inner) := by
  unfold conditional
  infer_instance

instance : Consumes (choice inner) := by
  unfold choice
  infer_instance

instance : Consumes (emission inner) := by
  unfold emission
  infer_instance

instance : Consumes (run inner) := by
  unfold run
  infer_instance

instance : Consumes lambdaParameters where
  shorter {s t params} h := by
    simp only [lambdaParameters, reads_bind, reads_accept, reads_ite, reads_pure] at h
    obtain ⟨_, u, ⟨hs, rfl, rfl⟩ | ⟨_, rfl, rfl⟩, h⟩ := h
    · obtain ⟨_, rfl⟩ : params = [] ∧ t = s.advance := by simpa using h
      exact State.advance_shorter (State.current?_of_sees hs)
    · obtain ⟨opener, v, hopener, hnames⟩ :
          ∃ opener v, Reads (expect (.symbol .bar)) u opener v ∧
            Reads (names .bar opener .lambdaParameter) v params t := by simpa using h
      exact Nat.lt_of_le_of_lt (Advances.reads hnames).length_le (Consumes.shorter hopener)

instance : Consumes (lambda inner) := by
  unfold lambda
  infer_instance

instance : Consumes (openRange inner) := by
  unfold openRange
  infer_instance

instance : Consumes (literalOrRange inner) := by
  unfold literalOrRange
  dsimp only
  infer_instance

instance : Consumes environment := by
  unfold environment
  infer_instance

instance : Consumes (parenthesized inner) := by
  unfold parenthesized
  infer_instance

instance : Consumes (array inner) := by
  unfold array
  infer_instance

instance : Consumes (itemBlock inner) := by
  unfold itemBlock
  infer_instance

instance : Consumes (braced inner) := by
  unfold braced
  infer_instance

theorem reads_get_bind {α : Type} {f : State → Parser α} {a : α} : Reads (get >>= f) s a t ↔
    Reads (f s) s a t :=
  Iff.rfl

instance : Consumes (primary inner) where
  shorter {s t e} h := by
    unfold primary at h
    rw [reads_get_bind] at h
    split at h <;> exact Consumes.shorter h

instance : Consumes (postfixed inner) := by
  have rest : ∀ e : Expr, Advances (match e with
      | .emit span format args => return .emit span format args
      | e => repeated (suffix? inner) e : Parser Expr) := by
    intro e
    split <;> infer_instance
  unfold postfixed
  infer_instance

theorem unaryOp?_current? {op : UnaryOp} (h : unaryOp? s = some op) :
    s.current? = some op.lexeme := by
  unfold unaryOp? at h
  split at h
  · cases h
    assumption
  · split at h
    · cases h
    · cases h
      assumption
  · cases h

instance : Consumes (unary inner) where
  shorter {s t e} h := by
    unfold unary at h
    rw [reads_get_bind] at h
    split at h
    · rename_i op hop
      obtain ⟨_, u, hu, h⟩ := reads_bind.1 h
      rw [reads_advance] at hu
      subst hu
      exact Nat.lt_of_le_of_lt (Advances.reads h).length_le
        (State.advance_shorter (unaryOp?_current? hop))
    · exact Consumes.shorter h

instance (minimum : Nat) : Consumes (climb inner minimum) := by
  unfold climb
  infer_instance

instance : Consumes (pipe inner) := by
  unfold pipe
  infer_instance

instance : Consumes (operation inner) := by
  unfold operation
  dsimp only
  infer_instance

instance : Consumes (profile inner) := by
  unfold profile
  infer_instance

instance : Consumes (function inner) := by
  unfold function
  infer_instance

instance : Consumes (binding inner) := by
  unfold binding
  infer_instance

instance : Consumes (use inner) := by
  unfold use
  dsimp only
  infer_instance

private theorem declaration?_shorter {d : Decl} (h : Reads (declaration? inner) s (some d) t) :
    t.after.length < s.after.length := by
  unfold declaration? at h
  rw [reads_get_bind] at h
  split at h
  all_goals simp only [reads_bind, reads_pure, Option.some.injEq] at h
  iterate 5
    · obtain ⟨d', u, hd, _, rfl⟩ := h
      exact Consumes.shorter hd
  · cases h.1

instance [Consumes (inner .expression)] : Consumes (item inner) where
  shorter {s t i} h := by
    unfold item at h
    obtain ⟨d, u, hd, h⟩ := reads_bind.1 h
    cases d with
    | some d =>
      obtain ⟨_, rfl⟩ := reads_pure.1 h
      exact declaration?_shorter hd
    | none =>
      obtain ⟨e, v, he, hv⟩ := reads_bind.1 h
      obtain ⟨_, rfl⟩ := reads_pure.1 hv
      exact Nat.lt_of_lt_of_le (Consumes.shorter he) (Advances.reads hd).length_le

instance : Consumes path := by
  unfold path
  infer_instance

instance : Consumes (step inner) := by
  unfold step
  dsimp only
  infer_instance

instance : Consumes (runItem inner) where
  shorter {s t i} h := by
    unfold runItem at h
    rw [reads_get_bind, reads_ite, reads_ite] at h
    rcases h with ⟨_, h⟩ | ⟨_, ⟨_, h⟩ | ⟨_, h⟩⟩
    · exact Consumes.shorter h
    · exact Consumes.shorter h
    · obtain ⟨d, u, hd, h⟩ := reads_bind.1 h
      cases d with
      | some d =>
        obtain ⟨_, rfl⟩ := reads_pure.1 h
        exact declaration?_shorter hd
      | none => exact (reads_unexpected.1 h).elim

end Readers

instance (limit room : Nat) : Consumes (enter limit room .expression) := by
  cases room with
  | zero =>
    unfold enter
    infer_instance
  | succ room => exact inferInstanceAs (Consumes (pipe (enter limit room)))

end ApiScript.Grammar
