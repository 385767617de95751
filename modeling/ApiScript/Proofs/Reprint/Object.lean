import ApiScript.Proofs.Reprint.Pattern

set_option autoImplicit false
set_option relaxedAutoImplicit false
set_option synthInstance.maxSize 2000

/-!
Objects are read again from what they are written as. They are lists of fields, in which a comma may
stand in front of the closer.
-/

namespace ApiScript

open Piece Placed
open Node (Good)

private def Field.layout (indent : Nat) : Field → List Piece
  | ⟨key, value, _⟩ => key.layout indent ++ ([symbol .colon, space] ++ value.layout indent)

private theorem Object.layoutFields_eq (indent : Nat) (fields : List Field) :
    Object.layoutFields indent fields = commaSeparated (Field.layout indent) fields := by
  induction fields with
  | nil => rfl
  | cons field fields ih =>
    obtain ⟨key, value, span⟩ := field
    rw [layoutFields, commaSeparated, ih, Field.layout, List.append_assoc (key.layout indent)]

namespace Grammar

variable {inner : Inner} {s t u : State} {o : Object} {f : Field} {fs : List Field}
    {b guessed : Bool} {code : Bool}
  {n : Nat} {qs : List Piece}

section Fields

private theorem continues_of_fields (hb : Reads (accept (.symbol .comma)) s b t)
    (h : Fields inner b t fs u) (hend : u.sees (.symbol .rightBrace) = true) :
    Continues (.symbol .rightBrace) true (field inner) s fs u := by
  induction h generalizing s with
  | @done b t hdone =>
    rcases reads_accept.1 hb with ⟨hcomma, rfl, rfl⟩ | ⟨hcomma, rfl, rfl⟩
    · exact .comma hcomma rfl hend
    · exact .bare hcomma
  | more hbrace hf hb' _ ih =>
    rcases reads_accept.1 hb with ⟨hcomma, -, rfl⟩ | ⟨-, hfalse, -⟩
    · exact .more hcomma (fun h => hbrace h.2) hf (ih hb' hend)
    · cases hfalse

private theorem fields_of_continues (h : Continues (.symbol .rightBrace) true (field inner) s fs u)
    (hend : u.sees (.symbol .rightBrace) = true) :
    ∃ b t, Reads (accept (.symbol .comma)) s b t ∧ Fields inner b t fs u := by
  induction h with
  | @bare s hcomma =>
    exact ⟨false, s, reads_accept.2 (.inr ⟨hcomma, rfl, rfl⟩), .done fun h =>
      Bool.false_ne_true h.1⟩
  | @comma s hcomma _ hbrace =>
    exact ⟨true, s.advance, reads_accept.2 (.inl ⟨hcomma, rfl, rfl⟩), .done fun h => h.2 hbrace⟩
  | @more s _ _ _ _ hcomma hopen hf _ ih =>
    obtain ⟨b, t, hb, hfields⟩ := ih hend
    exact ⟨true, s.advance, reads_accept.2 (.inl ⟨hcomma, rfl, rfl⟩),
      .more (fun h => hopen ⟨rfl, h⟩) hf hb hfields⟩

variable [∀ e, Advances (inner e)]

private theorem reads_object_iff (opener : Span) : Reads (object inner guessed) s o t ↔
    s.sees (.symbol .leftBrace) = true ∧
    ∃ closer, Reads (delimited .brace true opener (field inner)) s.advance (o.fields, closer) t ∧
      o.span = s.currentSpan.merge closer := by
  obtain ⟨fields, span⟩ := o
  rw [reads_object]
  constructor
  · rintro ⟨u, hbrace, hfields, -, hend, ho, rfl⟩
    refine ⟨hbrace, u.currentSpan, reads_delimited.2 ?_, by rw [ho]⟩
    cases hfields with
    | done hdone => exact .inl ⟨by simpa [Delimiter.closer] using hdone, rfl, rfl⟩
    | more hbrace' hf hb rest =>
      exact .inr ⟨hbrace', _, _, _, u, hf, continues_of_fields hb rest hend, hend, rfl, rfl⟩
  · rintro ⟨hbrace, closer, hlist, hspan⟩
    rcases reads_delimited.1 hlist with ⟨hend, hpair, rfl⟩ | ⟨hopen, f, s₁, fs, u, hf, hrest, hend,
      hpair, rfl⟩
    all_goals
      obtain ⟨rfl, rfl⟩ := Prod.mk.inj hpair
      obtain rfl := hspan
    · exact ⟨s.advance, hbrace, .done fun h => h.2 hend, fun h => h.2.1 hend, hend, rfl, rfl⟩
    · obtain ⟨b, t, hb, hbehind⟩ := fields_of_continues hrest hend
      exact ⟨u, hbrace, .more hopen hf hb hbehind, fun h => h.2.1 hend, hend, rfl, rfl⟩

end Fields

variable {indent : Nat}

private theorem Echoes.fieldValue (hi : Echoes inner) {value : Expr}
    (h : Hears (inner .expression) s value t) (hgood : Good code (.expr value))
    (hclosed : Closed t qs) {key key' : Key} (hkey : Same key key') (span : Span) :
    Echo code (do
      let _ ← expect (.symbol .colon)
      let value ← inner .expression
      return (⟨key', value, key'.span.merge value.span⟩ : Field)) ⟨key, value, span⟩ n
      (symbol .colon :: space :: (value.layout indent ++ qs)) n qs := by
  obtain ⟨hecho, -⟩ := hi.expression indent n h hgood hclosed.edge (hclosed.gap value)
  refine (Echo.expect (l := .symbol .colon) nofun
      (.symbol_detached (by decide) detached_space)).bind fun _ _ =>
    .space (hecho.bind fun value' hvalue => .pure ?_)
  simp only [Same, respan, Field.respan] at hkey hvalue ⊢
  rw [hkey, hvalue]

variable [∀ e, Advances (inner e)]

private theorem Echoes.field (hi : Echoes inner) (h : Hears (field inner) s f t)
    (hgood : Good code (.field f)) (hclosed : Closed t qs) :
    Echo code (Grammar.field inner) f n (f.layout indent ++ qs) n qs := by
  unfold Grammar.field at h ⊢
  simp only [hears_get, hears_bind, hears_ite, hears_pure, hears_expect, and_assoc, exists_and_left,
    exists_eq_left] at h
  obtain ⟨-, ⟨-, key, s₁, hkey, -, -, -, value, s₂, hvalue, -, rfl, rfl⟩ |
    ⟨-, key, s₁, hkey, -, -, -, value, s₂, hvalue, -, rfl, rfl⟩⟩ := h
  all_goals
    have hgoodValue := hgood.children (.expr value) (List.mem_cons_of_mem _ List.mem_cons_self)
    rw [Field.layout, Key.layout]
    simp only [List.append_assoc, List.cons_append, List.nil_append]
    refine .get_bind fun u hu => ?_
  · have hidentifier : u.atIdentifier = true := by
      rw [hkey.isIdentifier.piece] at hu
      rw [State.atIdentifier, hu.current? (by simp)]
    refine .ite_pos hidentifier
      ((Echo.name hkey.isIdentifier (bounds_symbol .colon)).bind fun key' hkey' => ?_)
    exact .bind (.pure (congrArg Key.name hkey')) fun key' hkey' =>
      hi.fieldValue hvalue hgoodValue hclosed hkey' _
  · refine .ite_neg (by rw [hu.string.1]; decide) (((hi.string hkey
      (hgood.children _ List.mem_cons_self) indent n).1).bind fun key' hkey' => ?_)
    exact .bind (.pure (congrArg Key.string hkey')) fun key' hkey' =>
      hi.fieldValue hvalue hgoodValue hclosed hkey' _

omit [∀ e, Advances (inner e)] in
private theorem not_closer_of_reads_field (h : Reads (Grammar.field inner) s f t) :
    s.sees (.symbol .rightBrace) = false := by
  obtain ⟨hkey, -⟩ := key_of_field h
  rcases State.current?_of_atKey hkey with ⟨text, hcurrent⟩ | ⟨kind, raw, -, hcurrent⟩ <;>
    simp [State.sees, hcurrent]

theorem Echoes.object (hi : Echoes inner) (h : Hears (object inner guessed) s o t)
    (hgood : Good code (.object o)) (guessed' : Bool) (indent n : Nat) (qs : List Piece) :
    Echo code (Grammar.object inner guessed') o n (o.layout indent ++ qs) n qs ∧
    Likes s (o.layout indent ++ qs) := by
  obtain ⟨hread, hs, hlog⟩ := h
  obtain ⟨hbrace, closer, hlist, -⟩ := (reads_object_iff .nowhere).1 hread
  have hear : Hears (delimited .brace true .nowhere (Grammar.field inner)) s.advance
      (o.fields, closer) t :=
    ⟨hlist, hs.advance, hlog.trans s.log_advance.symm⟩
  have hall : Separates code .brace true (Grammar.field inner) (Field.layout indent) Closed o.fields
      (n + 1) qs :=
    separates_closed (.inr (by decide))
      (fun hf hear hclosed => hi.field hear (hgood.children _ (List.mem_map_of_mem hf)) hclosed)
      not_closer_of_reads_field
  have hecho :
      Echo code (delimited .brace true .nowhere (Grammar.field inner)) (o.fields, closer)
        (n + 1) _ n qs :=
    .delimited hall hear .rightBrace
  have hlayout : o.layout indent ++ qs =
      symbol .leftBrace ::
      (commaSeparated (Field.layout indent) o.fields ++ lexeme Delimiter.brace.closer :: qs) := by
    obtain ⟨fields, span⟩ := o
    rw [Object.layout, Object.layoutFields_eq]
    simp only [List.append_assoc, List.cons_append, List.nil_append]
    rfl
  rw [hlayout]
  refine ⟨⟨fun hqs => (hecho.written hqs).leftBrace, fun {u} hu => ?_⟩,
    likes_leftBrace hbrace fun _ _ _ => atOptionalObject_of_object hread⟩
  obtain ⟨⟨fields, closer'⟩, v, hr, hsame, hv, hquiet⟩ := hecho.answers (hu.advance (by simp))
  refine ⟨⟨fields, u.currentSpan.merge closer'⟩, v,
    (reads_object_iff .nowhere).2 ⟨?_, closer', hr, rfl⟩, ?_, hv,
    hquiet.trans u.log_advance⟩
  · rw [hu.sees (by simp), beq_self_eq_true]
  · have hfields : Same o.fields fields := congrArg Prod.fst hsame
    obtain ⟨fields, span⟩ := o
    simp only [Same, respan, Object.respan, Field.respanAll_eq_map] at hfields ⊢
    rw [hfields]

theorem Echoes.optionalObject (hi : Echoes inner) {o : Option Object}
    (h : Hears (optionalObject inner) s o t) (hgood : ∀ o' ∈ o, Good code (.object o'))
    (hlikes : Likes t qs) (indent n : Nat) :
    Echo code (Grammar.optionalObject inner) o n (o.elim [] (fun o => space :: o.layout indent) ++
      qs) n qs ∧
      Likes s (o.elim [] (fun o => space :: o.layout indent) ++ qs) := by
  unfold Grammar.optionalObject at h ⊢
  simp only [hears_get, hears_bind, hears_ite, hears_pure, and_assoc, exists_and_left,
    exists_eq_left] at h
  obtain ⟨-, ⟨-, o, s₁, ho, -, rfl, rfl⟩ | ⟨hnone, -, rfl, rfl⟩⟩ := h
  · obtain ⟨hecho, hlike⟩ := hi.object ho (hgood o rfl) false indent n qs
    have hspaced := hecho.space
    refine ⟨.get_bind fun u hu =>
      .ite_pos ?_ (hspaced.bind fun o' ho' => .pure (congrArg some ho')), hlike.space⟩
    obtain ⟨o', v, ho', -⟩ := hspaced.answers hu
    exact atOptionalObject_of_object ho'
  · exact ⟨.get_bind fun u hu => .ite_neg (fun hat => hnone ((hlikes u hu).object hat))
      (.pure rfl), hlikes⟩

end Grammar

end ApiScript
