import ApiScript.Proofs.Lexing.Interpolated
import ApiScript.Proofs.Lexing.Unescape
import ApiScript.Proofs.Shape.Literal
import ApiScript.Tree.Layout

set_option autoImplicit false
set_option relaxedAutoImplicit false

/-!
Strings with code in them, as they are written: the lexer finds their end, and they are split into
the texts and the code that they were written from.
-/

namespace ApiScript

namespace Quoted

open Enclosure

section Body

variable {kind : StringClass} {body rest : List Char} {es ds : List Element}

private theorem Body.closing?_append (h : Body kind body es)
    (hrest : kind = .interpolated → rest.head? ≠ some '{') :
    closing? [kind.enclosure] (body ++ rest) = (closing? [kind.enclosure] rest).map
      (· + body.length) := by
  induction h with
  | nil => simp
  | @sequence letter tail behind escaped es h _ ih =>
    rw [List.cons_append, List.cons_append, List.append_assoc, StringClass.closing?_escape,
      StringClass.closing?_digits (escape_digits h), ih, map_add_map_add, map_add_map_add]
    congr 1
    funext n
    simp only [List.length_cons, List.length_append]
    omega
  | @char c behind es hslash hquote hcode _ ih =>
    have hopen (hkind : kind = .interpolated) (hc : c = '$') :
        (behind ++ rest).head? ≠ some '{' := by
      cases behind with
      | nil => exact hrest hkind
      | cons d behind => exact hcode hkind hc
    rw [List.cons_append, StringClass.closing?_pass hslash hquote hopen, ih, map_add_map_add,
      List.length_cons]

/-- The elements of a text at an offset, which is as long as the text at most. -/
private def Yields (e : LexicalError) (offset : Nat) (cs : List Char) (es : List Element) : Prop :=
  ∀ bound, cs.length ≤ bound → elementsWithin (some e) bound offset cs = .ok es

variable {e : LexicalError} {offset : Nat}

private theorem yields_nil : Yields e offset [] [] := fun _ _ => elementsWithin_nil ..

private theorem Body.yields_append (h : Body .interpolated body es) (hhead : rest.head? ≠ some '{')
    (hrest : Yields e (offset + Text.byteSize body) rest ds) :
    Yields e offset (body ++ rest) (es ++ ds) := by
  induction h generalizing offset with
  | nil => exact hrest
  | @sequence letter tail behind escaped es h _ ih =>
    have hsequence :
        escape (letter :: (tail ++ (behind ++ rest))) = .ok (escaped, tail.length + 1) := by
      have hsame := escape_take_append h (behind ++ rest)
      rwa [List.take_succ_cons, List.take_left, List.cons_append] at hsame
    have hoffset : offset + Text.byteSize ('\\' :: letter :: (tail ++ behind)) =
        offset + 1 + Text.byteSize (letter :: tail) + Text.byteSize behind := by
      rw [Text.byteSize_cons, ← List.cons_append, Text.byteSize_append, ← Nat.add_assoc,
        ← Nat.add_assoc]
      rfl
    rw [hoffset] at hrest
    intro bound hbound
    rw [List.cons_append, List.cons_append, List.append_assoc] at hbound ⊢
    obtain ⟨bound, rfl⟩ := Nat.exists_eq_add_one_of_ne_zero (Nat.ne_zero_of_lt hbound)
    have hdrop : (letter :: (tail ++ (behind ++ rest))).drop (tail.length + 1) = behind ++ rest :=
      List.drop_left
    have htake : (letter :: (tail ++ (behind ++ rest))).take (tail.length + 1) = letter ::
        tail := by
      rw [List.take_succ_cons, List.take_left]
    simp only [List.length_cons, List.length_append] at hbound
    simp only [elementsWithin_escape, hsequence, hdrop, htake]
    rw [ih hrest bound (by rw [List.length_append]; omega)]
    rfl
  | @char c behind es hslash hquote hcode _ ih =>
    have hopen (hc : c = '$') : (behind ++ rest).head? ≠ some '{' := by
      cases behind with
      | nil => exact hhead
      | cons d behind => exact hcode rfl hc
    rw [Text.byteSize_cons, ← Nat.add_assoc] at hrest
    intro bound hbound
    obtain ⟨bound, rfl⟩ := Nat.exists_eq_add_one_of_ne_zero (Nat.ne_zero_of_lt hbound)
    rw [List.cons_append, elementsWithin_char hslash fun _ => hopen,
      ih hrest bound (Nat.le_of_succ_le_succ hbound)]
    rfl

private theorem yields_code {source : String} (h : Lexer.Embeddable 0 ⟨source.toList, 0⟩)
    (hrest : Yields e (offset + 2 + Text.byteSize (source.toList ++ ['}'])) rest ds) :
    Yields e offset ('$' :: '{' :: (source.toList ++ '}' :: rest))
      (.code source (offset + 2) :: ds) := by
  have hclosing :
      closing? [.code 0] (source.toList ++ '}' :: rest) = some (source.toList.length + 1) := by
    rw [h.closing?, closing?, Option.map_some, Nat.zero_add]
  have hlength : source.toList.length + 1 = (source.toList ++ ['}']).length := by
    rw [List.length_append]; rfl
  have hsplit : source.toList ++ '}' :: rest = source.toList ++ ['}'] ++ rest := by simp
  intro bound hbound
  obtain ⟨bound, rfl⟩ := Nat.exists_eq_add_one_of_ne_zero (Nat.ne_zero_of_lt hbound)
  simp only [List.length_cons, List.length_append] at hbound
  rw [elementsWithin_code, hclosing]
  dsimp only
  rw [Nat.add_sub_cancel, List.take_left, String.ofList_toList, hlength, hsplit, List.take_left,
    List.drop_left, hrest bound (by omega)]
  rfl

end Body

inductive Cut (indent : Nat) : StringPart → Segment → Prop
  | text (text : String) : Cut indent (.text text) (.text text)
  | code (e : Expr) (offset : Nat) :
    Cut indent (.code e) (.code (Piece.render (e.layout indent)) offset)

section Parts

variable {indent : Nat} {parts : List StringPart}

def Holdable (indent : Nat) (parts : List StringPart) : Prop :=
  ∀ e, .code e ∈ parts → ∀ offset,
    Lexer.Embeddable 0 ⟨(Piece.render (e.layout indent)).toList, offset⟩

private theorem Holdable.tail {part : StringPart} (h : Holdable indent (part :: parts)) :
    Holdable indent parts :=
  fun e he => h e (List.mem_cons_of_mem _ he)

private theorem encode_parts_head (indent : Nat) (h : ∀ part ∈ parts.head?, part.text? = none)
    {rest : List Char} (hrest : rest.head? ≠ some '{') :
    (StringPart.encode .double indent parts ++ rest).head? ≠ some '{' := by
  cases parts with
  | nil =>
    rw [StringPart.encode]
    exact hrest
  | cons part parts =>
    cases part with
    | text text => cases h _ rfl
    | code e =>
      rw [StringPart.encode]
      rintro ⟨⟩

private theorem closing?_parts (hcode : Holdable indent parts)
    (hapart : parts.IsChain fun a b => a.text? = none ∨ b.text? = none) :
    closing? [.text] (StringPart.encode .double indent parts ++ ['"']) =
      some (StringPart.encode .double indent parts ++ ['"']).length := by
  induction parts with
  | nil => rw [StringPart.encode]; decide
  | cons part parts ih =>
    obtain ⟨hnext, hapart⟩ := List.isChain_cons.1 hapart
    have ih := ih hcode.tail hapart
    cases part with
    | text text =>
      obtain ⟨es, hbody, -⟩ := encode_body .double text.toList
      have hhead :=
        @encode_parts_head parts indent (fun b hb => (hnext b hb).resolve_left nofun) ['"']
          (by decide)
      have happend : closing? [.text] _ = (closing? [.text] _).map _ :=
        hbody.closing?_append fun _ => hhead
      rw [StringPart.encode, List.append_assoc, happend, ih]
      simp only [Option.map_some, List.length_append]
      congr 1
      omega
    | code e =>
      have hclosing :=
        (hcode e List.mem_cons_self 0).closing? [.text]
          (StringPart.encode .double indent parts ++ ['"'])
      rw [StringPart.encode]
      simp only [List.cons_append, List.nil_append, List.append_assoc]
      rw [closing?, hclosing, ih]
      simp only [Option.map_some, List.length_append, List.length_cons]
      congr 1
      omega

private theorem segments_append {es ds : List Element} {cs : List Char}
    (h : es.map Element.char? = cs.map some) (read : List Char) :
    segments read (es ++ ds) = segments (cs.reverse ++ read) ds := by
  induction es generalizing cs read with
  | nil =>
    obtain rfl := List.map_eq_nil_iff.1 h.symm
    rfl
  | cons e es ih =>
    obtain ⟨c, cs, rfl⟩ : ∃ c ds, cs = c :: ds := by
      cases cs with
      | nil => cases h
      | cons c cs => exact ⟨c, cs, rfl⟩
    obtain ⟨he, hes⟩ := List.cons.inj h
    rw [List.reverse_cons, List.append_assoc, List.singleton_append]
    cases e with
    | char d =>
      cases he
      exact ih hes _
    | byte b =>
      cases he
      exact ih hes _
    | code => cases he

private theorem yields_parts (e : LexicalError) (offset : Nat) (hcode : Holdable indent parts)
    (hempty : .text "" ∉ parts)
    (hapart : parts.IsChain fun a b => a.text? = none ∨ b.text? = none) :
    ∃ es segs, Yields e offset (StringPart.encode .double indent parts) es ∧
    List.Forall₂ (Cut indent) parts segs ∧ segments [] es = segs ∧
      ((∀ part ∈ parts.head?, part.text? = none) →
        ∀ read, segments read es = pendingChars read ++ segs) := by
  induction parts generalizing offset with
  | nil =>
    rw [StringPart.encode]
    exact ⟨[], [], yields_nil, .nil, rfl, fun _ read => (List.append_nil _).symm⟩
  | cons part parts ih =>
    obtain ⟨hnext, hapart⟩ := List.isChain_cons.1 hapart
    have hrest :=
      fun offset => ih offset hcode.tail (fun h => hempty (List.mem_cons_of_mem _ h)) hapart
    cases part with
    | text text =>
      have hcodes : ∀ part ∈ parts.head?, part.text? = none :=
        fun b hb => (hnext b hb).resolve_left nofun
      have hhead := @encode_parts_head parts indent hcodes [] nofun
      rw [List.append_nil] at hhead
      obtain ⟨ds, hbody, hds⟩ := encode_body .double text.toList
      obtain ⟨es, segs, hes, hcut, -, hsegments⟩ :=
        hrest (offset + Text.byteSize (encode .double text.toList))
      have htext : pendingChars (text.toList.reverse ++ []) = [.text text] := by
        have hne : text.toList ≠ [] :=
          fun h => hempty (by rw [String.toList_eq_nil_iff.1 h]; exact List.mem_cons_self)
        rw [pendingChars, List.append_nil, if_neg (by simpa using hne), List.reverse_reverse,
          String.ofList_toList]
      refine ⟨ds ++ es, .text text :: segs, ?_, .cons (.text text) hcut, ?_, fun h => ?_⟩
      · rw [StringPart.encode]
        exact hbody.yields_append hhead hes
      · rw [segments_append hds, hsegments hcodes, htext]
        rfl
      · cases h _ rfl
    | code c =>
      obtain ⟨es, segs, hes, hcut, hsegments, -⟩ :=
        hrest (offset + 2 + Text.byteSize ((Piece.render (c.layout indent)).toList ++ ['}']))
      have hread (read : List Char) :
          segments read (.code (Piece.render (c.layout indent)) (offset + 2) :: es) =
            pendingChars read ++ .code (Piece.render (c.layout indent)) (offset + 2) :: segs := by
        rw [segments, hsegments]
      refine ⟨.code (Piece.render (c.layout indent)) (offset + 2) :: es,
        .code (Piece.render (c.layout indent)) (offset + 2) :: segs, ?_, .cons (.code c _) hcut,
        hread [], fun _ =>
          hread⟩
      rw [StringPart.encode]
      simp only [List.cons_append, List.nil_append, List.append_assoc]
      exact yields_code (hcode c List.mem_cons_self 0) hes

/-- A string in double quotes is split into what it was written from. -/
theorem split_parts (hcode : Holdable indent parts) (hempty : .text "" ∉ parts)
    (hapart : parts.IsChain fun a b => a.text? = none ∨ b.text? = none) (span : Span) :
    ∃ segs, split (String.ofList (['"'] ++ StringPart.encode .double indent parts ++ ['"'])) span =
      .ok segs ∧
      List.Forall₂ (Cut indent) parts segs := by
  obtain ⟨es, segs, hes, hcut, hsegments, -⟩ :=
    yields_parts (unterminated '"' span) (span.start + 1) hcode hempty hapart
  refine ⟨segs, ?_, hcut⟩
  rw [split, String.toList_ofList, List.append_assoc, List.singleton_append, unquote?_concat]
  dsimp only
  rw [splitFrom_nil, elements, hes _ (Nat.le_refl _), Except.map, hsegments]

theorem lexeme_parts_wellSpelled (hcode : Holdable indent parts)
    (hapart : parts.IsChain fun a b => a.text? = none ∨ b.text? = none) :
    (lexeme .double (StringPart.encode .double indent parts)).WellSpelled := by
  refine ⟨StringPart.encode .double indent parts ++ ['"'], ?_, closing?_parts hcode hapart⟩
  rw [String.toList_ofList, List.append_assoc]
  rfl

end Parts

end Quoted

end ApiScript
