import ApiScript.Proofs.Reprint.Literal
import ApiScript.Proofs.RoundTrip.Binding

set_option autoImplicit false
set_option relaxedAutoImplicit false
set_option synthInstance.maxSize 2000

/-!
Patterns are read again from what they are written as.
-/

namespace ApiScript.Grammar

open Piece Placed
open Node (Good)

variable {inner : Inner} {s t u : State} {p : Pattern} {code : Bool} {indent n : Nat}
    {qs : List Piece}

section Ranges

private theorem layout_patternRange (span : Span) (start stop : Option Literal) (inclusive : Bool) :
    (Pattern.range span start stop inclusive).layout indent ++ qs = start.elim []
    (Literal.layout indent) ++
      Piece.rangeMark inclusive :: (stop.elim [] (Literal.layout indent) ++ qs) := by
  cases start <;> cases stop <;> simp [Pattern.layout]

private theorem same_patternRange {span span' : Span} {start start' stop stop' : Option Literal}
    {inclusive inclusive' : Bool} (hstart : Same start start') (hstop : Same stop stop')
    (h : Same inclusive inclusive') :
    Same (Pattern.range span start stop inclusive)
      (Pattern.range span' start' stop' inclusive') := by
  simp only [Same, respan, Pattern.respan_range] at hstart hstop h ⊢
  rw [hstart, hstop, h]

variable [∀ e, Advances (inner e)]

private theorem Echoes.literalPattern (hi : Echoes inner) (h : Hears (literalPattern inner) s p t)
    (hgood : Good code (.pattern p)) (hedge : Edge true t qs) :
    Echo code (Grammar.literalPattern inner) p n (p.layout indent ++ qs) n qs ∧
      ∀ u : State, u.Shows (p.layout indent ++ qs) → u.atLiteral = true := by
  unfold Grammar.literalPattern at h ⊢
  simp only [hears_get, hears_bind, hears_ite, hears_pure, and_assoc, exists_and_left,
    exists_eq_left] at h
  obtain ⟨-, l, s₁, hl, -, ⟨hmark, inclusive, s₂, hinclusive, -, h⟩ | ⟨hmark, -, rfl, rfl⟩⟩ := h
  · rcases h with ⟨hliteral, stop, s₃, hstop, -, -, -, rfl, rfl⟩ | ⟨hliteral, -, -, -, rfl, rfl⟩
    · obtain ⟨_, _, hfirst⟩ :=
        hi.respelled hl (hgood.children _ (List.mem_append_left _ List.mem_cons_self)) indent
      obtain ⟨_, _, hsecond⟩ := hi.respelled hstop (hgood.children _
        (List.mem_append_right _ List.mem_cons_self)) indent
      rw [layout_patternRange]
      refine ⟨.get_bind fun u hu => (hfirst.echo detached_rangeMark).bind fun l' hl' =>
        .get_bind fun v hv => ?_, fun u hu => (hfirst.shown hu).1⟩
      refine .ite_pos hv.rangeMark.2
          ((Echo.rangeMark (written_rangeMark_begins hsecond.begins)).bind fun inclusive' hi' =>
        .get_bind fun w hw =>
          .ite_pos (hsecond.shown hw).1 ((hsecond.echo hedge.detached).bind fun stop' hstop' => ?_))
      exact .bind (.pure (a := some stop') rfl) fun stop'' hstop'' => .get_bind fun x hx => .pure
        (same_patternRange (congrArg some hl') ((congrArg some hstop').trans hstop'') hi')
    · obtain ⟨_, _, hfirst⟩ :=
        hi.respelled hl (hgood.children _ (List.mem_append_left _ List.mem_cons_self)) indent
      obtain ⟨-, rfl⟩ := reads_rangeMark.1 hinclusive.reads
      rw [layout_patternRange]
      refine ⟨.get_bind fun u hu => (hfirst.echo detached_rangeMark).bind fun l' hl' =>
        .get_bind fun v hv => ?_, fun u hu => (hfirst.shown hu).1⟩
      refine .ite_pos hv.rangeMark.2
          ((Echo.rangeMark (written_rangeMark hedge.detached)).bind fun inclusive' hi' =>
        .get_bind fun w hw =>
          .ite_neg (by rw [hedge.not_atLiteral (by simpa using hliteral) hw]; decide) ?_)
      exact .bind (.pure (a := none) rfl) fun stop'' hstop'' => .get_bind fun x hx => .pure
        (same_patternRange (congrArg some hl') hstop'' hi')
  · obtain ⟨_, _, hrespelled⟩ :=
      hi.respelled hl (hgood.children _ (List.mem_singleton_self _)) indent
    rw [Pattern.layout]
    refine ⟨.get_bind fun u hu => (hrespelled.echo hedge.detached).bind fun l' hl' =>
      .get_bind fun v hv => ?_, fun u hu => (hrespelled.shown hu).1⟩
    refine .ite_neg (by rwa [hedge.atRangeMark hv]) (.pure ?_)
    simp only [Same, respan, Pattern.respan] at hl' ⊢
    rw [hl']

private theorem Echoes.openRangePattern (hi : Echoes inner)
    (h : Hears (openRangePattern inner) s p t) (hgood : Good code (.pattern p))
    (hedge : Edge true t qs) :
    Echo code (Grammar.pattern inner) p n (p.layout indent ++ qs) n qs := by
  unfold Grammar.openRangePattern at h
  simp only [hears_get, hears_bind, hears_ite, hears_pure, hears_throw, and_false, or_false,
    and_assoc, exists_and_left, exists_eq_left] at h
  obtain ⟨-, inclusive, s₁, hinclusive, -, hliteral, stop, s₂, hstop, -, rfl, rfl⟩ := h
  obtain ⟨_, _, hrespelled⟩ := hi.respelled hstop (hgood.children _ List.mem_cons_self) indent
  rw [layout_patternRange]
  refine .of_reads (q := Grammar.openRangePattern inner) (.get_bind fun u hu => ?_)
    fun u hu p' v hp' => ?_
  · refine (Echo.rangeMark (written_rangeMark_begins hrespelled.begins)).bind fun inclusive' hi' =>
      .get_bind fun v hv => ?_
    refine .ite_pos (hrespelled.shown hv).1
      ((hrespelled.echo hedge.detached).bind fun stop' hstop' => .pure ?_)
    exact @same_patternRange _ _ none none (some stop) (some stop') _ _ rfl
      (congrArg some hstop') hi'
  · unfold Grammar.pattern
    rw [reads_get_bind, hu.rangeMark.1]
    cases inclusive <;> exact hp'

end Ranges

section Lists

variable {f : FieldPattern}

private theorem Echo.bracketed {α : Type} [Placed α] {item : Parser α} [Advances item]
    {layout : α → List Piece} {follows : State → List Piece → Prop} {delimiter : Delimiter}
    {span span' : Span} {r : List α × Span} {m : Nat} (opener : Symbol)
    (hall : Separates code delimiter true item layout follows r.1 m qs)
    (h : Hears (bracketed delimiter span item) s r t) (hbar : opener ≠ .bar)
    (hopen : ∀ ps, Written code m ps → Written code n (symbol opener :: ps))
    (hclose : Written code n qs → Written code m (lexeme delimiter.closer :: qs)) :
    Echo code (Grammar.bracketed delimiter span' item) r n
      (symbol opener :: (commaSeparated layout r.1 ++ lexeme delimiter.closer :: qs)) n qs := by
  have hear : Hears (Grammar.delimited delimiter true span item) s.advance r t :=
    ⟨reads_bracketed.1 h.reads, h.spelled.advance, h.quiet.trans s.log_advance.symm⟩
  have hecho : Echo code (Grammar.delimited delimiter true span' item) r m _ n qs :=
    .delimited hall hear hclose
  refine ⟨fun hqs => hopen _ (hecho.written hqs), fun {u} hu => ?_⟩
  obtain ⟨r', v, hr, hsame, hv, hlog⟩ :=
    hecho.answers (hu.advance fun h => hbar (Lexeme.symbol.inj h))
  exact ⟨r', v, reads_bracketed.2 hr, hsame, hv, hlog.trans u.log_advance⟩

variable [∀ e, Advances (inner e)]

private theorem Echoes.fieldPattern (hi : Echoes inner) (h : Hears (fieldPattern inner) s f t)
    (hgood : Good code (.fieldPattern f)) (hclosed : Closed t qs) :
    Echo code (Grammar.fieldPattern inner) f n (f.layout indent ++ qs) n qs := by
  have hedge : Edge true t qs := hclosed.edge
  unfold Grammar.fieldPattern at h ⊢
  simp only [hears_bind, hears_accept, hears_ite, hears_pure] at h
  obtain ⟨key, s₁, hkey, more, s₂, ⟨-, ⟨hcolon, rfl, rfl⟩ | ⟨hcolon, rfl, rfl⟩⟩, h⟩ := h
  · obtain ⟨-, p, s₃, hp, -, rfl, rfl⟩ := h.resolve_right fun h => h.1 rfl
    rw [FieldPattern.layout, List.cons_append]
    refine (Echo.name hkey.isIdentifier (bounds_symbol .colon)).bind fun key' hkey' => ?_
    have hecho :=
      hi.pattern indent n hp (hgood.children _ (List.mem_cons_of_mem _ List.mem_cons_self)) hedge
    refine .accept (by simp) (.symbol_detached (by decide) detached_space)
      (.ite_pos rfl (.space ?_))
    refine hecho.bind fun p' hp' => .pure ?_
    simp only [Same, respan, FieldPattern.respan_mk] at hkey' hp' ⊢
    simp only [Option.map_some, hkey', hp']
  · obtain ⟨-, -, rfl, rfl⟩ := h.resolve_left fun h => Bool.false_ne_true h.1
    rw [FieldPattern.layout, List.singleton_append]
    refine (Echo.name hkey.isIdentifier hedge.detached.bounds).bind fun key' hkey' => ?_
    refine .not_accept (fun u hu => ?_) (.ite_neg Bool.false_ne_true (.pure ?_))
    · rw [(hedge.likes u hu).sees rfl]
      simpa using hcolon
    · simp only [Same, respan, FieldPattern.respan_mk] at hkey' ⊢
      rw [hkey']

omit [∀ e, Advances (inner e)] in
private theorem echo_identifier {text : String} {span : Span} (htext : Lexeme.IsIdentifier text)
    (hbounds : Bounds (render qs).toList) :
    Echo code (pattern inner) (if text = "_" then .wildcard span else .name ⟨text, span⟩) n
      (lexeme (.identifier text) :: qs) n qs where
  written := .identifier htext hbounds
  answers {u} hu := by
    refine ⟨if text = "_" then .wildcard u.currentSpan else .name ⟨text, u.currentSpan⟩,
      u.advance, ?_, ?_, hu.advance nofun, u.log_advance⟩
    · unfold pattern
      rw [reads_get_bind, hu.current? nofun]
      exact reads_bind.2 ⟨(), _, reads_advance.2 rfl, reads_pure.2 ⟨rfl, rfl⟩⟩
    · by_cases htext : text = "_"
      · rw [if_pos htext, if_pos htext]
        rfl
      · rw [if_neg htext, if_neg htext]
        rfl

private theorem layout_identifier {text : String} {span : Span} (htext : Lexeme.IsIdentifier text) :
    (if text = "_" then Pattern.wildcard span else .name ⟨text, span⟩).layout indent =
      [lexeme (.identifier text)] := by
  have hlexeme : Lexeme.ofWord text = .identifier text :=
    Lexeme.ofWord_eq_identifier.2 ⟨rfl, htext.free⟩
  split
  · rename_i htext
    rw [Pattern.layout, htext]
  · rw [Pattern.layout, Piece.name, Name.lexeme, hlexeme]

theorem Echoes.patternNode (hi : Echoes inner) (h : Hears (Grammar.pattern inner) s p t)
    (hgood : Good code (.pattern p)) (hedge : Edge true t qs) :
    Echo code (Grammar.pattern inner) p n (p.layout indent ++ qs) n qs := by
  obtain ⟨hread, hs, hlog⟩ := h
  unfold Grammar.pattern at hread
  rw [reads_get_bind] at hread
  dsimp only at hread
  split at hread
  · rename_i text hcurrent
    simp only [reads_bind, reads_advance, reads_pure, exists_const, exists_eq_left] at hread
    obtain ⟨rfl, -⟩ := hread
    have htext : Lexeme.IsIdentifier text := hs.current? hcurrent
    rw [layout_identifier htext, List.singleton_append]
    exact echo_identifier htext hedge.detached.bounds
  · exact hi.openRangePattern ⟨hread, hs, hlog⟩ hgood hedge
  · exact hi.openRangePattern ⟨hread, hs, hlog⟩ hgood hedge
  · simp only [reads_bind, reads_pure] at hread
    obtain ⟨r, u, hr, rfl, rfl⟩ := hread
    rw [Pattern.layout, Pattern.layoutAll_eq]
    simp only [List.append_assoc, List.cons_append, List.nil_append]
    refine .get_bind fun v hv => ?_
    rw [hv.current? (by simp)]
    have hall : Separates code .bracket true (inner .pattern) (Pattern.layout indent) Closed
        r.1 n qs :=
      separates_closed (.inr (by decide))
        (fun hp hear hclosed =>
          hi.pattern indent n hear (hgood.children _ (List.mem_map_of_mem hp)) hclosed.edge)
        (hi.begins .bracket)
    refine (Echo.bracketed .leftBracket hall ⟨hr, hs, hlog⟩ (by simp)
      (fun _ => .fixed (by decide) rfl)
      (.fixed (by decide) rfl)).bind fun r' hr' => .pure ?_
    have hsame : Same r.1 r'.1 := congrArg Prod.fst hr'
    simp only [Same, respan, Pattern.respan, Pattern.respanAll_eq_map] at hsame ⊢
    rw [hsame]
  · simp only [reads_bind, reads_pure] at hread
    obtain ⟨r, u, hr, rfl, rfl⟩ := hread
    rw [Pattern.layout, Pattern.layoutFields_eq]
    simp only [List.append_assoc, List.cons_append, List.nil_append]
    refine .get_bind fun v hv => ?_
    rw [hv.current? (by simp)]
    have hall : Separates code .brace true (Grammar.fieldPattern inner) (FieldPattern.layout indent)
      Closed r.1
      (n + 1) qs :=
      separates_closed (.inr (by decide))
        (fun hf hear hclosed =>
          hi.fieldPattern hear (hgood.children _ (List.mem_map_of_mem hf)) hclosed)
        (not_closer_of_reads_fieldPattern .brace)
    refine (Echo.bracketed .leftBrace hall ⟨hr, hs, hlog⟩ (by simp) (fun _ => .leftBrace)
      .rightBrace).bind
      fun r' hr' => .pure ?_
    have hsame : Same r.1 r'.1 := congrArg Prod.fst hr'
    simp only [Same, respan, Pattern.respan, FieldPattern.respanAll_eq_map] at hsame ⊢
    rw [hsame]
  · simp only [reads_ite, reads_throw, and_false, or_false] at hread
    obtain ⟨hecho, hliteral⟩ := hi.literalPattern ⟨hread.2, hs, hlog⟩ hgood hedge
    exact hecho.of_reads fun u hu _ _ => reads_pattern_of_atLiteral (hliteral u hu)

end Lists

end ApiScript.Grammar
