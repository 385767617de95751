import ApiScript.Proofs.Pairing.Standalone
import ApiScript.Proofs.Places.Segment
import ApiScript.Proofs.Shape.Program
import ApiScript.Proofs.Spelling.Spans

set_option autoImplicit false
set_option relaxedAutoImplicit false

/-!
The expressions in strings are what their code is read as alone, at whatever depth the strings are,
since each of them has been read from code between braces. The levels that are spent around a string
count in its code too.
-/

namespace ApiScript

open Grammar

/-- The part stands for the segment: the same text, or the expression for code that the source has
between braces. The code alone is read as the expression, whose spans are then `offset` less, unless
it is told in the code that the limit of nesting was exceeded. -/
inductive StringPart.Embeds (source : String) (log : List Diagnostic) :
    StringPart → Quoted.Segment → Prop
  | text (text : String) : Embeds source log (.text text) (.text text)
  | code {e : Expr} {code : String} {offset : Nat} (front behind : List Char)
    (braced : source.toList = front ++ (['$', '{'] ++ code.toList ++ ['}']) ++ behind)
    (place : offset = Text.byteSize front + 2)
    (alone : (parseExpr code).1.map (Expr.respan (.shift offset)) = some e ∨
      ∃ d ∈ log, d.problem = .tooDeep Session.defaultLimit ∧ offset ≤ d.span.start ∧
        d.span.start ≤ offset + Text.byteSize code.toList) :
        Embeds source log (.code e) (.code code offset)

/-- The parts of a string with code stand for the segments of what the source has there. -/
private def StringLiteral.Embeds (source : String) (log : List Diagnostic)
    (s : StringLiteral) : Prop :=
  s.isInterpolated = true → ∃ raw segments, s.span.Holds source raw ∧
    Quoted.split raw s.span = .ok segments ∧
    List.Forall₂ (StringPart.Embeds source log) s.parts segments

private def Scope.embedding (source : String) (log : List Diagnostic) : Scope :=
  ⟨source, log, StringLiteral.Embeds source log⟩

namespace Grammar

variable {source raw : String} {log : List Diagnostic} {room : Nat} {span : Span}
    {segments : List Quoted.Segment}

private theorem PartOf.embeds (hroom : room ≤ Session.defaultLimit)
    (hraw : span.Shows source raw.toList) (hsplit : Quoted.split raw span = .ok segments)
    {part : StringPart} {segment : Quoted.Segment} (hmem : segment ∈ segments)
    (h : PartOf (enter Session.defaultLimit room) log part segment) :
    part.Embeds source log segment := by
  cases h with
  | text text => exact .text text
  | @code e code offset finish hread hlog =>
    obtain ⟨text, start, front, behind, hexcerpt, htext, hspan⟩ := hraw
    obtain ⟨left, right, hsource, hleft⟩ := hexcerpt.piece htext
    obtain ⟨front', behind', hcode, hoffset⟩ :=
      (Quoted.split_segmented hsplit).braced code offset hmem
    refine .code (left ++ front') (behind' ++ right) ?_ ?_ ?_
    · rw [hsource, hcode]
      simp only [List.append_assoc]
    · rw [hoffset, hspan, hleft, Text.byteSize_append]
    · exact (parseExpr_of_embedded hroom hread).imp_right fun ⟨d, hd, htold⟩ => ⟨d, hlog hd, htold⟩

private theorem quotes_embedding (source : String) (log : List Diagnostic)
    (hroom : room ≤ Session.defaultLimit) :
    Quotes (.embedding source log) (enter Session.defaultLimit room) where
  meets {expected s t l} hs hlog hr hcode := by
    rcases reads_string hr with
      ⟨raw, segments, u, hcurrent, hsplit, hparts, hl, rfl⟩ | ⟨raw, text, _, _, rfl, _⟩
    · have hraw := hs.shows hcurrent (by simp)
      have hof := stringParts_of (List.Subset.trans (Reaches.advance u).log.subset hlog) hparts
      rw [hl]
      refine ⟨raw, segments, hraw.slice, hsplit, ?_⟩
      refine List.forall₂_iff_get.2 ⟨hof.length_eq, fun i h₁ h₂ => ?_⟩
      exact PartOf.embeds hroom hraw hsplit (List.get_mem segments ⟨i, h₂⟩) (hof.get h₁ h₂)
    · dsimp only [StringLiteral.isInterpolated] at hcode
      split at hcode <;> cases hcode

end Grammar

theorem Program.Below.of_everywhere {p : Program} {P : Node → Prop} {n : Node} (h : p.Below n)
    (hp : p.Everywhere P) : n.Everywhere P := by
  induction h with
  | item hi => exact hp _ hi
  | child _ hc ih => exact ih.children _ hc

/-- The expressions in a string of a program are what the code that the source has for them is read
as alone, each by the place of its code, unless it is told in the code that the limit of nesting was
exceeded. -/
theorem parse_embeds (source : String) {s : StringLiteral}
    (hs : (parse source Session.defaultLimit).1.Below (.string s))
    (hcode : s.isInterpolated = true) :
    ∃ raw segments, s.span.Holds source raw ∧ Quoted.split raw s.span = .ok segments ∧
      List.Forall₂ (StringPart.Embeds source (parse source Session.defaultLimit).2) s.parts
        segments := by
  have hfits :
      Fits (.embedding source (parse source Session.defaultLimit).2)
        (parse source Session.defaultLimit).1 :=
    fits_parse (fun _ hroom => quotes_embedding source _ hroom) (List.Subset.refl _)
  have hmeets :
      (parse source Session.defaultLimit).1.Everywhere (Node.Meets (.embedding source _)) :=
    fun i hi =>
    (hfits.sound (.item i) (List.mem_flatMap.2 ⟨i, hi, List.mem_singleton_self _⟩)).meets
  exact (hs.of_everywhere hmeets).here hcode

/-- The node that is found by its numbers among the children on the way to it. -/
def Node.at? : Node → List Nat → Option Node
  | n, [] => some n
  | n, i :: path => n.children[i]?.bind (·.at? path)

def Program.stringAt? (p : Program) (i : Nat) (path : List Nat) : Option StringLiteral :=
  p.items[i]?.bind fun item => ((Node.item item).at? path).bind fun
    | .string s => some s
    | _ => none

theorem Program.Below.at? {p : Program} {n m : Node} {path : List Nat} (h : p.Below n)
    (hm : n.at? path = some m) :
    p.Below m := by
  induction path generalizing n with
  | nil => exact Option.some.inj hm ▸ h
  | cons i path ih =>
    obtain ⟨c, hc, hpath⟩ := Option.bind_eq_some_iff.1 hm
    exact ih (.child h (List.mem_of_getElem? hc)) hpath

private theorem Program.exists_below {p : Program} (ask : StringLiteral → Bool) (i : Nat)
    (path : List Nat) (h : (p.stringAt? i path).any ask = true) :
    ∃ s, p.Below (.string s) ∧ ask s = true := by
  cases hs : p.stringAt? i path with
  | none =>
    rw [hs] at h
    cases h
  | some s =>
    rw [hs] at h
    obtain ⟨item, hitem, hs⟩ := Option.bind_eq_some_iff.1 hs
    obtain ⟨n, hn, hs⟩ := Option.bind_eq_some_iff.1 hs
    have hbelow := (Below.item (List.mem_of_getElem? hitem)).at? hn
    cases n with
    | string s' => exact ⟨s, Option.some.inj hs ▸ hbelow, h⟩
    | _ => cases hs

/-- A string in the code of a string, in front of a declaration that goes wrong. -/
theorem parse_embeds_of_nested :
    let source := "f(\"é$\x7b[1, \"$\x7by.z\x7d\"]\x7d\") let"
    ∃ s, s.span = ⟨11, 19⟩ ∧ (parse source Session.defaultLimit).1.Below (.string s) ∧
    s.isInterpolated = true ∧
      ∃ raw segments, s.span.Holds source raw ∧ Quoted.split raw s.span = .ok segments ∧
        List.Forall₂ (StringPart.Embeds source (parse source Session.defaultLimit).2) s.parts
          segments := by
  intro source
  obtain ⟨s, hs, hask⟩ := Program.exists_below (p := (parse source Session.defaultLimit).1)
    (fun s => decide (s.span = ⟨11, 19⟩ ∧ s.isInterpolated = true)) 0 [0, 1, 0, 0, 0, 1, 0, 0]
    (by decide +kernel)
  obtain ⟨hspan, hcode⟩ := of_decide_eq_true hask
  exact ⟨s, hspan, hs, hcode, parse_embeds source hs hcode⟩

def Expr.isEmptyBlock : Expr → Bool
  | .block b => b.items.isEmpty
  | _ => false

def StringPart.code? : StringPart → Option Expr
  | text _ => none
  | code e => some e

/-- Inside of so many arrays, the one statement in the code is too deep, so that a block without it
is left. -/
theorem parse_embeds_below_arrays :
    let raw := "\"$\x7b\x7b(x)\x7d\x7d\""
    let source :=
  String.ofList (List.replicate 45 '[') ++ raw ++ String.ofList (List.replicate 45 ']')
    ∃ s e, (parse source Session.defaultLimit).1.Below (.string s) ∧ s.span.Holds source raw ∧
      Quoted.split raw s.span = .ok [.code "\x7b(x)\x7d" 48] ∧ s.parts = [.code e] ∧
      (parseExpr "\x7b(x)\x7d").2 = [] ∧
        (parseExpr "\x7b(x)\x7d").1.map (Expr.respan (.shift 48)) ≠ some e := by
  intro raw source
  obtain ⟨s, hs, hask⟩ := Program.exists_below (p := (parse source Session.defaultLimit).1)
    (fun s => decide (s.span = ⟨45, 55⟩ ∧ s.parts.length = 1 ∧
      ∀ part ∈ s.parts, (part.code?.any Expr.isEmptyBlock) = true)) 0 (List.replicate 48 0)
        (by decide +kernel)
  obtain ⟨hspan, hlength, hempty⟩ := of_decide_eq_true hask
  obtain ⟨part, hparts⟩ := List.length_eq_one_iff.1 hlength
  rw [hparts, List.forall_mem_singleton] at hempty
  cases part with
  | text text => cases hempty
  | code e =>
    have hslice : Text.slice? 45 55 source.toList = some raw.toList := by decide +kernel
    have hfull : ((parseExpr "\x7b(x)\x7d").1.map (Expr.respan (.shift 48))).any Expr.isEmptyBlock =
        false := by
      decide +kernel
    refine ⟨s, e, hs, ?_, ?_, hparts, by decide +kernel, fun h => ?_⟩
    · rw [Span.Holds, hspan]
      exact hslice
    · rw [hspan]
      decide +kernel
    · rw [h] at hfull
      exact Bool.false_ne_true (hfull.symm.trans hempty)

end ApiScript
