import ApiScript.Proofs.Lexing.Interpolated
import ApiScript.Proofs.RoundTrip.Literal

set_option autoImplicit false
set_option relaxedAutoImplicit false

/-!
Pieces up to the end of a text. The lexemes that are read from it are those of the pieces, but for
two bars against each other, which are read as one symbol. The text can stand in embedded code where
its braces are balanced.
-/

namespace ApiScript

open Piece

namespace Lexeme.BracesBalanced

variable {pending : Nat} {ls : List Lexeme} {l : Lexeme}

private theorem opened (h : BracesBalanced (pending + 1) ls) :
    BracesBalanced pending (.symbol .leftBrace :: ls) where
  prefixes n hn := by
    cases n with
    | zero => simp
    | succ n =>
      have := h.prefixes n (Nat.le_of_succ_le_succ hn)
      simp
      omega
  total := by
    have := h.total
    simp
    omega

private theorem closed (h : BracesBalanced pending ls) :
    BracesBalanced (pending + 1) (.symbol .rightBrace :: ls) where
  prefixes n hn := by
    cases n with
    | zero => simp
    | succ n =>
      have := h.prefixes n (Nat.le_of_succ_le_succ hn)
      simp
      omega
  total := by
    have := h.total
    simp
    omega

private theorem plain (hopen : l ≠ .symbol .leftBrace) (hclose : l ≠ .symbol .rightBrace)
    (h : BracesBalanced pending ls) :
    BracesBalanced pending (l :: ls) where
  prefixes n hn := by
    cases n with
    | zero => simp
    | succ n =>
      have := h.prefixes n (Nat.le_of_succ_le_succ hn)
      rwa [List.take_succ_cons, List.count_cons_of_ne hopen, List.count_cons_of_ne hclose]
  total := by
    have := h.total
    rwa [List.count_cons_of_ne hopen, List.count_cons_of_ne hclose]

end Lexeme.BracesBalanced

namespace Piece

/-- The pieces as they are read: two bars against each other are one symbol. -/
def joined : List Piece → List Piece
  | lexeme (.symbol .bar) :: lexeme (.symbol .bar) :: ps => symbol .or :: joined ps
  | p :: ps => p :: joined ps
  | [] => []

section Joined

variable {p : Piece} {ps : List Piece}

theorem joined_cons (hp : p ≠ symbol .bar) : joined (p :: ps) = p :: joined ps := by
  rw [joined]
  exact fun _ h _ => hp h

theorem joined_bar (h : ps.head? ≠ some (symbol .bar)) :
    joined (symbol .bar :: ps) = symbol .bar :: joined ps := by
  rw [symbol, joined]
  rintro qs - rfl
  exact h rfl

private theorem render_joined (ps : List Piece) :
    (render (joined ps)).toList = (render ps).toList := by
  fun_induction joined ps with
  | case1 ps ih =>
    rw [render_cons, render_cons, render_cons, ih]
    rfl
  | case2 p ps _ ih => rw [render_cons, render_cons, ih]
  | case3 => rfl

end Joined

/-- The pieces make up the rest of a text whose lexemes are theirs, and in which so many open braces
are closed. In embedded code, no byte string is taken to end elsewhere. -/
structure Written (code : Bool) (pending : Nat) (ps : List Piece) : Prop where
  clear : Clear (joined ps) []
  bytes : code = true → ∀ l ∈ lexemes (joined ps), ¬l.Misread
  balanced : Lexeme.BracesBalanced pending (lexemes (joined ps))

namespace Written

variable {code : Bool} {pending : Nat} {ps qs : List Piece} {l : Lexeme} {s : Symbol} {k : Keyword}

theorem nil : Written code 0 [] where
  clear := trivial
  bytes _ := List.forall_mem_nil _
  balanced := ⟨by simp [joined, lexemes], by simp [joined, lexemes]⟩

theorem space (h : Written code pending ps) : Written code pending (space :: ps) where
  clear := h.clear
  bytes := h.bytes
  balanced := h.balanced

theorem line (indent : Nat) (h : Written code pending ps) :
    Written code pending (line indent :: ps) where
  clear := h.clear
  bytes := h.bytes
  balanced := h.balanced

private theorem clear_lexeme (hspelled : l.WellSpelled) (htrivia : l.isTrivia = false)
    (hstops : l.Stops (render ps).toList) (h : Written code pending ps) :
    Clear (Piece.lexeme l :: joined ps) [] := by
  refine ⟨⟨hspelled, htrivia, ?_⟩, h.clear⟩
  rwa [List.append_nil, render_joined]

theorem of_joined (hqs : joined qs = Piece.lexeme l :: joined ps) (hspelled : l.WellSpelled)
    (htrivia : l.isTrivia = false) (hstops : l.Stops (render ps).toList)
    (hbytes : code = true → ¬l.Misread) (hopen : l ≠ .symbol .leftBrace)
    (hclose : l ≠ .symbol .rightBrace) (h : Written code pending ps) :
    Written code pending qs where
  clear := by
    rw [hqs]
    exact h.clear_lexeme hspelled htrivia hstops
  bytes hcode := by
    rw [hqs]
    exact List.forall_mem_cons.2 ⟨hbytes hcode, h.bytes hcode⟩
  balanced := by
    rw [hqs]
    exact h.balanced.plain hopen hclose

theorem leftBrace (h : Written code (pending + 1) ps) :
    Written code pending (symbol .leftBrace :: ps) where
  clear := h.clear_lexeme trivial rfl fun _ _ => rfl
  bytes hcode := List.forall_mem_cons.2 ⟨id, h.bytes hcode⟩
  balanced := h.balanced.opened

theorem rightBrace (h : Written code pending ps) :
    Written code (pending + 1) (symbol .rightBrace :: ps) where
  clear := h.clear_lexeme trivial rfl fun _ _ => rfl
  bytes hcode := List.forall_mem_cons.2 ⟨id, h.bytes hcode⟩
  balanced := h.balanced.closed

theorem symbol (hs : s ∉ [.bar, .leftBrace, .rightBrace])
    (hstops : ∀ c ∈ (render ps).toList.head?, s.growsBy c = false) (h : Written code pending ps) :
    Written code pending (symbol s :: ps) := by
  simp only [List.mem_cons, List.not_mem_nil, or_false, not_or] at hs
  refine h.of_joined (joined_cons ?_) trivial rfl hstops (fun _ => id) ?_ ?_
  · rintro ⟨⟩
    exact hs.1 rfl
  · rintro ⟨⟩
    exact hs.2.1 rfl
  · rintro ⟨⟩
    exact hs.2.2 rfl

theorem fixed (hs : s ∉ [.bar, .leftBrace, .rightBrace]) (hgrows : s.growsBy = fun _ => false)
    (h : Written code pending ps) : Written code pending (Piece.symbol s :: ps) :=
  h.symbol hs fun _ _ => by rw [hgrows]

theorem keyword (hbounds : Bounds (render ps).toList) (h : Written code pending ps) :
    Written code pending (keyword k :: ps) :=
  h.of_joined (joined_cons nofun) trivial rfl hbounds (fun _ => id) nofun nofun

theorem identifier {text : String} (htext : Lexeme.IsIdentifier text)
    (hbounds : Bounds (render ps).toList) (h : Written code pending ps) :
    Written code pending (Piece.lexeme (.identifier text) :: ps) :=
  h.of_joined (joined_cons nofun) htext rfl hbounds (fun _ => id) nofun nofun

theorem bars (h : Written code pending ps) :
    Written code pending (Piece.symbol .bar :: Piece.symbol .bar :: ps) :=
  h.of_joined rfl trivial rfl (fun _ _ => rfl) (fun _ => id) nofun nofun

theorem bar (hbar : ps.head? ≠ some (Piece.symbol .bar))
    (hstops : ∀ c ∈ (render ps).toList.head?, c ≠ '|' ∧ c ≠ '>') (h : Written code pending ps) :
    Written code pending (Piece.symbol .bar :: ps) := by
  refine h.of_joined (joined_bar hbar) trivial rfl (fun c hc => ?_) (fun _ => id) nofun nofun
  obtain ⟨hor, hpipe⟩ := hstops c hc
  simp [Symbol.growsBy, hor, hpipe]

private theorem tokenize (h : Written code pending ps) (offset : Nat) :
    Lexer.tokenize ⟨(render ps).toList, offset⟩ = (tokens offset (joined ps), []) := by
  have htokenize := tokenize_render h.clear.legible offset
  rwa [List.append_nil, Lexer.tokenize_nil, List.append_nil, render_joined] at htokenize

theorem embeddable (h : Written true pending ps) (offset : Nat) :
    Lexer.Embeddable pending ⟨(render ps).toList, offset⟩ := by
  have hlexemes : ∀ t ∈ tokens offset (joined ps), t.lexeme ∈ lexemes (joined ps) := by
    intro t ht
    rw [← tokens_lexemes offset]
    exact List.mem_map_of_mem ht
  constructor <;> rw [h.tokenize]
  · rw [tokens_lexemes]
    exact h.balanced
  · exact fun t ht => h.bytes rfl _ (hlexemes t ht)
  · intro t ht hcomment
    have hkept := (h.clear.kept _ (hlexemes t (List.mem_of_getLast? ht))).1
    cases hlexeme : t.lexeme <;> simp [hlexeme, Lexeme.isTrivia, Lexeme.isComment,
      Lexeme.isLineComment] at hkept hcomment

end Written

end Piece

namespace Grammar.State

variable {s : State} {ps : List Piece} {l : Lexeme}

/-- The tokens of pieces are all that is ahead, wherever these stand. -/
def Shows (s : State) (ps : List Piece) : Prop :=
  ∃ offset, s.after = Piece.tokens offset (Piece.joined ps)

theorem shows_ofString {code : Bool} {pending : Nat} (h : Piece.Written code pending ps)
    (offset : Nat) :
    (State.ofString (render ps) offset).Shows ps ∧
    (State.ofString (render ps) offset).log = [] := by
  have hkept {p : Token → Bool}
      (hp : ∀ t, t.lexeme.isTrivia = false ∧ t.lexeme ≠ .invalid → p t = true) :
      (Piece.tokens offset (joined ps)).filter p = Piece.tokens offset (joined ps) := by
    refine List.filter_eq_self.2 fun t ht => hp t (h.clear.kept _ ?_)
    rw [← Piece.tokens_lexemes offset]
    exact List.mem_map_of_mem ht
  simp only [Shows, State.ofString, Lexer.tokenizeFiltered, Lexer.ofString, h.tokenize]
  rw [hkept fun t ht => by simp [ht.1], hkept fun t ht => by simp [ht.2]]
  exact ⟨⟨offset, rfl⟩, rfl⟩

namespace Shows

theorem nil (h : s.Shows []) : s.after = [] := by
  obtain ⟨offset, h⟩ := h
  exact h

theorem space (h : s.Shows (space :: ps)) : s.Shows ps := by
  obtain ⟨offset, h⟩ := h
  exact ⟨_, h⟩

theorem line {indent : Nat} (h : s.Shows (line indent :: ps)) : s.Shows ps := by
  obtain ⟨offset, h⟩ := h
  exact ⟨_, h⟩

private theorem of_joined {qs : List Piece} (hqs : joined qs = lexeme l :: joined ps)
    (h : s.Shows qs) :
    s.current? = some l ∧ s.advance.Shows ps := by
  obtain ⟨offset, h⟩ := h
  rw [hqs] at h
  refine ⟨?_, _, State.after_advance h⟩
  simp [State.current?, State.peek?, h, Piece.tokens]

theorem current? (h : s.Shows (lexeme l :: ps)) (hl : l ≠ .symbol .bar) : s.current? = some l :=
  (h.of_joined (joined_cons fun heq => hl (Piece.lexeme.inj heq))).1

theorem advance (h : s.Shows (lexeme l :: ps)) (hl : l ≠ .symbol .bar) : s.advance.Shows ps :=
  (h.of_joined (joined_cons fun heq => hl (Piece.lexeme.inj heq))).2

theorem bars (h : s.Shows (symbol .bar :: symbol .bar :: ps)) :
    s.current? = some (.symbol .or) ∧ s.advance.Shows ps := h.of_joined rfl

theorem bar (h : s.Shows (symbol .bar :: ps)) (hps : ps.head? ≠ some (symbol .bar)) :
    s.current? = some (.symbol .bar) ∧ s.advance.Shows ps := h.of_joined (joined_bar hps)

theorem sees (h : s.Shows (lexeme l :: ps)) (hl : l ≠ .symbol .bar) (l' : Lexeme) :
    s.sees l' = (l == l') := by
  simp [State.sees, h.current? hl]

end Shows

end Grammar.State

end ApiScript
