import ApiScript.Proofs.Reading.Brace
import ApiScript.Proofs.Reprint.Items
import ApiScript.Proofs.Reprint.Quoted

set_option autoImplicit false
set_option relaxedAutoImplicit false

/-!
Strings are read again from what they are written as, if the code in them is. That is written and
read as a text of its own.
-/

namespace ApiScript.Grammar

open Piece Placed
open Node (Good)

/-- What the readers of nodes one level deeper have read without a report is written as pieces that
they read again, in front of pieces that are like what the nodes stood in front of. -/
structure Echoes (inner : Inner) : Prop where
  expression {code : Bool} {s t : State} {e : Expr} {qs : List Piece} (indent n : Nat) :
    Hears (inner .expression) s e t → Good code (.expr e) → Edge true t qs → Gap e qs →
      Echo code (inner .expression) e n (e.layout indent ++ qs) n qs ∧
      Likes s (e.layout indent ++ qs)
  operand {code : Bool} {s t : State} {e : Expr} {qs : List Piece} (indent n : Nat) :
    Hears (inner .operand) s e t → Good code (.expr e) → Edge true t qs → Gap e qs →
      Echo code (inner .operand) e n (e.layout indent ++ qs) n qs ∧ Likes s (e.layout indent ++ qs)
  alternative {code : Bool} {s t : State} {c : Conditional} {qs : List Piece} (indent n : Nat) :
    Hears (inner .alternative) s c t → Good code (.conditional c) → Likes t qs →
      Echo code (inner .alternative) c n (c.layout indent ++ qs) n qs
  block {code : Bool} {s t : State} {b : Block} (indent n : Nat) (qs : List Piece) :
    Hears (inner .block) s b t → Good code (.block b) →
      Echo code (inner .block) b n (b.layout indent ++ qs) n qs ∧ Likes s (b.layout indent ++ qs)
  pattern {code : Bool} {s t : State} {p : Pattern} {qs : List Piece} (indent n : Nat) :
    Hears (inner .pattern) s p t → Good code (.pattern p) → Edge true t qs →
      Echo code (inner .pattern) p n (p.layout indent ++ qs) n qs
  starts {s t : State} {e : Expr} : Reads (inner .expression) s e t → s.atExpressionStart = true
  closes {s t : State} {e : Expr} : Reads (inner .expression) s e t → t.atOperator = false
  /-- An expression that begins with a name does not go on with two colons behind it. -/
  qualified {s t : State} {e : Expr} : Reads (inner .expression) s e t → s.atIdentifier = true →
    s.peek? 1 = some (.symbol .scope) → t.sees (.symbol .scope) = true
  begins {s t : State} {p : Pattern} (delimiter : Delimiter) :
    Reads (inner .pattern) s p t → s.sees delimiter.closer = false
  /-- A pattern that begins with a key does not go on with a colon behind it. -/
  keyed {s t : State} {p : Pattern} : Reads (inner .pattern) s p t → s.atKey = true →
    s.advance.sees (.symbol .colon) = true → t.sees (.symbol .colon) = true
  writes : Writes inner
  told {s t : State} {b : Block} : Reads (itemBlock inner) s b t → t.log = s.log →
    s.atObjectStart = false

variable {inner : Inner} {s t u : State} {l : StringLiteral} {code : Bool} {parts : List StringPart}
  {segments : List Quoted.Segment}

section Embedded

private theorem State.report_nil (s : State) : s.report [] = s := by
  simp only [State.report, List.append_nil]

/-- Embedded code that is read without a report is read so in a text of its own. -/
private theorem hears_embedded [∀ e, Advances (inner e)] {source : String} {offset : Nat} {e : Expr}
    (h : Reads (embedded inner source offset) s e t) (hlog : t.log = s.log) :
    ∃ finish, Hears (inner .expression) (State.ofString source offset) e finish ∧
    finish.after = [] := by
  obtain ⟨finish, -, hwhole, rfl⟩ := reads_embedded.1 h
  obtain ⟨-, he, hend⟩ := reads_wholeExpression.1 hwhole
  have hfinish : finish.log = [] := by simpa [State.report] using hlog
  have hstart : (State.ofString source offset).log = [] := by
    have hprefix := (Advances.reads he).log
    rwa [hfinish, List.prefix_nil] at hprefix
  refine ⟨finish, ⟨he, State.spelled_ofString source offset, hfinish.trans hstart.symm⟩, ?_⟩
  simpa [State.atEnd] using hend

private theorem Echoes.embedded [∀ e, Advances (inner e)] (hi : Echoes inner) {source : String}
    {offset : Nat} {e : Expr} (h : Reads (embedded inner source offset) s e t)
    (hlog : t.log = s.log) (hgood : Good true (.expr e)) (indent : Nat) :
    (∀ offset, Lexer.Embeddable 0 ⟨(render (e.layout indent)).toList, offset⟩) ∧
      ∀ offset u, ∃ e', Reads (Grammar.embedded inner (render (e.layout indent)) offset) u e' u ∧
      Same e e' := by
  obtain ⟨finish, he, hend⟩ := hears_embedded h hlog
  obtain ⟨hecho, -⟩ := hi.expression indent 0 he hgood ⟨.nil hend, detached_nil⟩ nofun
  rw [List.append_nil] at hecho
  have hwritten := hecho.written .nil
  refine ⟨hwritten.embeddable, fun offset u => ?_⟩
  obtain ⟨hshows, hstart⟩ := State.shows_ofString hwritten offset
  obtain ⟨e', v, he', hsame, hv, hquiet⟩ := hecho.answers hshows
  have hbroken := broken_of_log_nil hstart
  have hwhole :
      Reads (wholeExpression inner) (State.ofString (render (e.layout indent)) offset) e' v :=
    reads_wholeExpression.2 ⟨hbroken, he', by simp [State.atEnd, hv.nil]⟩
  have hopen : (State.ofString (render (e.layout indent)) offset).atEnd = false := by
    obtain ⟨l, hl, -⟩ := (Option.any_eq_true ..).1 (hi.starts he')
    exact State.not_atEnd_of_current? hl
  refine ⟨e', reads_embedded.2 ⟨v, by simp [hopen], hwhole, ?_⟩, hsame⟩
  rw [hquiet, hstart, State.report_nil]

private theorem Echoes.stringParts [∀ e, Advances (inner e)] (hi : Echoes inner)
    (h : Reads (stringParts inner segments) s parts t)
    (hlog : t.log = s.log) (hgood : ∀ e, .code e ∈ parts → Good true (.expr e)) (indent : Nat) :
    Quoted.Holdable indent parts ∧ ∀ {segments'}, List.Forall₂ (Quoted.Cut indent) parts segments' →
      ∀ u, ∃ parts', Reads (Grammar.stringParts inner segments') u parts' u ∧
      Same parts parts' := by
  induction segments generalizing s parts with
  | nil =>
    obtain ⟨rfl, rfl⟩ := reads_pure.1 h
    refine ⟨fun e he => absurd he List.not_mem_nil, fun hcut u => ?_⟩
    cases hcut
    exact ⟨[], reads_pure.2 ⟨rfl, rfl⟩, rfl⟩
  | cons segment segments ih =>
    cases segment with
    | text text =>
      simp only [Grammar.stringParts, reads_bind, reads_pure] at h
      obtain ⟨rest, v, hrest, rfl, rfl⟩ := h
      obtain ⟨hholdable, hread⟩ := ih hrest hlog fun e he => hgood e (List.mem_cons_of_mem _ he)
      refine ⟨fun e he => hholdable e ((List.mem_cons.1 he).resolve_left (by simp)),
        fun hcut u => ?_⟩
      cases hcut with
      | cons hpart hrest =>
        cases hpart
        obtain ⟨rest', hrest', hsame⟩ := hread hrest u
        exact ⟨.text text :: rest', reads_bind.2 ⟨rest', u, hrest', reads_pure.2 ⟨rfl, rfl⟩⟩,
          same_cons rfl hsame⟩
    | code source offset =>
      simp only [Grammar.stringParts, reads_bind, reads_pure] at h
      obtain ⟨e, v, he, rest, w, hrest, rfl, rfl⟩ := h
      have hfirst := (embedded_moves he).log
      have hbehind := (stringParts_moves hrest).log
      have hv : v.log = s.log := (hfirst.eq_of_length_le (hlog ▸ hbehind.length_le)).symm
      obtain ⟨hcode, hreread⟩ := hi.embedded he hv (hgood e List.mem_cons_self) indent
      obtain ⟨hholdable, hread⟩ :=
        ih hrest (hlog.trans hv.symm) fun e he => hgood e (List.mem_cons_of_mem _ he)
      refine ⟨fun e' he' => ?_, fun hcut u => ?_⟩
      · rcases List.mem_cons.1 he' with heq | hmem
        · cases heq
          exact hcode
        · exact hholdable e' hmem
      · cases hcut with
        | cons hpart hrest =>
          cases hpart with
          | code _ offset =>
            obtain ⟨e', he', hsame⟩ := hreread offset u
            obtain ⟨rest', hrest', hsames⟩ := hread hrest u
            refine ⟨.code e' :: rest', reads_bind.2 ⟨e', u, he', reads_bind.2
              ⟨rest', u, hrest', reads_pure.2 ⟨rfl, rfl⟩⟩⟩, ?_⟩
            exact same_cons (congrArg StringPart.code hsame) hsames

end Embedded

private theorem encode_textParts (quote : Quote) (indent : Nat) (text : String) :
    StringPart.encode quote indent (textParts text) = Quoted.encode quote text.toList := by
  unfold textParts
  split
  · rename_i hempty
    rw [String.isEmpty_iff.1 hempty, StringPart.encode]
    rfl
  · rw [StringPart.encode, StringPart.encode, List.append_nil]

/-- A string is written as a lexeme of its kind, which it is read from wherever that stands. -/
theorem Echoes.string_spelled [∀ e, Advances (inner e)] (hi : Echoes inner) {expected : Expectation}
    (h : Hears (string inner expected) s l t) (hgood : Good code (.string l)) (indent : Nat) :
    ∃ kind ≠ StringClass.bytes, ∃ raw raw', s.current? = some (.string kind raw) ∧
      l.layout indent = [lexeme (.string kind raw')] ∧ (Lexeme.string kind raw').WellSpelled ∧
      ∀ expected u, u.current? = some (.string kind raw') →
        ∃ l', Reads (string inner expected) u l' u.advance ∧ Same l l' := by
  obtain ⟨hread, -, hlog⟩ := h
  rcases reads_string hread with ⟨raw, segments, v, hs, hsplit, hparts, hl, rfl⟩ | ⟨raw, text, hs,
    hdecode, rfl, rfl⟩
  · obtain ⟨quote, parts, span⟩ := l
    cases hl
    rw [State.log_advance] at hlog
    have hnormal := hgood.here.normal _ rfl
    obtain ⟨hholdable, hreread⟩ := hi.stringParts hparts hlog (fun e he => hgood.code he) indent
    refine ⟨.interpolated, by decide, raw, _, hs, by rw [StringLiteral.layout]; rfl,
      Quoted.lexeme_parts_wellSpelled hholdable hnormal.apart, fun expected u hu => ?_⟩
    obtain ⟨segments', hsplit', hcut⟩ :=
      Quoted.split_parts hholdable hnormal.nonempty hnormal.apart u.currentSpan
    obtain ⟨parts', hparts', hsame⟩ := hreread hcut u
    refine ⟨⟨.double, parts', u.currentSpan⟩, ?_, ?_⟩
    · unfold string
      rw [reads_get_bind, hu]
      exact reads_bind.2 ⟨_, u, reads_decoded.2 ⟨hsplit', rfl⟩, reads_bind.2 ⟨_, u, hparts',
        reads_bind.2 ⟨(), _, reads_advance.2 rfl, reads_pure.2 ⟨rfl, rfl⟩⟩⟩⟩
    · simp only [Same, respan, StringLiteral.respan, StringPart.respanAll_eq_map] at hsame ⊢
      rw [hsame]
  · refine ⟨.simple, by
      decide, raw, String.ofList ([Quote.single.char] ++ Quoted.encode .single text.toList ++
      [Quote.single.char]), hs, ?_, Quoted.lexeme_wellSpelled .single text, fun expected u hu => ?_⟩
    · rw [StringLiteral.layout]
      exact congrArg (fun body => [lexeme (Quoted.lexeme .single body)])
        (encode_textParts .single indent text)
    · obtain ⟨⟨_, found⟩, rest, hafter, rfl⟩ := State.after_of_current? hu
      exact ⟨_, @reads_string_text inner u .single _ text found rest hafter (by simp)
        (fun _ => Quoted.decodeSimple_encode text found) expected, rfl⟩

theorem State.Shows.string {indent : Nat} {qs : List Piece} (h : u.Shows (l.layout indent ++ qs)) :
    u.atIdentifier = false ∧ u.atString = true := by
  obtain ⟨quote, parts, span⟩ := l
  rw [StringLiteral.layout] at h
  have hcurrent := h.current? (by simp [Quoted.lexeme])
  unfold State.atIdentifier State.atString
  rw [hcurrent]
  cases quote <;> exact ⟨rfl, rfl⟩

theorem Echoes.string [∀ e, Advances (inner e)] (hi : Echoes inner)
    {expected expected' : Expectation} {qs : List Piece} (h : Hears (string inner expected) s l t)
    (hgood : Good code (.string l)) (indent n : Nat) :
    Echo code (Grammar.string inner expected') l n (l.layout indent ++ qs) n qs ∧
    Likes s (l.layout indent ++ qs) := by
  obtain ⟨kind, hkind, raw, raw', hs, hlayout, hspelled, hread⟩ := hi.string_spelled h hgood indent
  rw [hlayout, List.singleton_append]
  refine ⟨⟨fun hw => ?_, fun {u} hu => ?_⟩, likes_lexeme (by rw [hs]; rfl) nofun nofun⟩
  · refine hw.of_joined (joined_cons nofun) hspelled rfl trivial (fun _ => ?_) nofun nofun
    cases kind with
    | bytes => exact absurd rfl hkind
    | _ => exact id
  · obtain ⟨l', hl', hsame⟩ := hread expected' u (hu.current? nofun)
    exact ⟨l', u.advance, hl', hsame, hu.advance nofun, u.log_advance⟩

end ApiScript.Grammar
