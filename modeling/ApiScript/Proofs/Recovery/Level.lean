import ApiScript.Proofs.Recovery.Brackets

set_option autoImplicit false
set_option relaxedAutoImplicit false

/-!
The brackets of a script without diagnostics: each one is closed, and by the closer of its kind. All
marks of a tree are spelled by tokens that leave open just what was open in front of them.
-/

namespace ApiScript

open Grammar

namespace Grammar

/-- Tokens that close all they open, and nothing else. -/
def Level (ts : List Token) : Prop :=
  ∀ before, openers (ts.reverse ++ before) = openers before ∧
    (Nests before → Nests (ts.reverse ++ before))

private theorem Level.nil : Level [] := fun _ => ⟨rfl, id⟩

private theorem Level.append {ts us : List Token} (h : Level ts) (k : Level us) :
    Level (ts ++ us) := by
  intro before
  rw [List.reverse_append, List.append_assoc]
  exact ⟨(k _).1.trans (h before).1, fun hn => (k _).2 ((h before).2 hn)⟩

private theorem Level.plain {t : Token} (ho : t.lexeme.opens? = none)
    (hc : t.lexeme.closes? = none) : Level [t] :=
  fun _ => ⟨openers_plain ho hc, fun hn => ⟨by simp [hc], hn⟩⟩

private theorem Level.brackets {opener closer : Token} {d : Delimiter} {ts : List Token}
    (ho : opener.lexeme.opens? = some d) (hc : closer.lexeme.closes? = some d) (h : Level ts) :
    Level (opener :: ts ++ [closer]) := by
  intro before
  have htokens :
      (opener :: ts ++ [closer]).reverse ++ before =
        closer :: (ts.reverse ++ opener :: before) := by
    simp
  obtain ⟨hopeners, hnests⟩ := h (opener :: before)
  rw [openers_opens ho] at hopeners
  rw [htokens, openers_closes hc, hopeners, List.tail_cons]
  refine ⟨rfl, fun hn => ⟨?_, hnests ⟨?_, hn⟩⟩⟩
  · rw [hc, hopeners]
    simp
  · rw [Lexeme.closes?_of_opens ho]
    nofun

private theorem openers_congr {ts us : List Token} (h : ts.map (·.lexeme) = us.map (·.lexeme)) :
    openers ts = openers us := by
  induction ts generalizing us with
  | nil =>
    rw [List.map_nil, eq_comm, List.map_eq_nil_iff] at h
    rw [h]
  | cons t ts ih =>
    cases us with
    | nil => cases h
    | cons u us =>
      obtain ⟨hhead, hrest⟩ := List.cons.inj h
      have hlength : ts.length = us.length := by simpa using congrArg List.length hrest
      simp only [openers, ih hrest, hlength, show t.lexeme = u.lexeme from hhead]

private theorem nests_congr {ts us : List Token} (h : ts.map (·.lexeme) = us.map (·.lexeme)) :
    Nests ts ↔ Nests us := by
  induction ts generalizing us with
  | nil =>
    rw [List.map_nil, eq_comm, List.map_eq_nil_iff] at h
    rw [h]
  | cons t ts ih =>
    cases us with
    | nil => cases h
    | cons u us =>
      obtain ⟨hhead, hrest⟩ := List.cons.inj h
      simp only [Nests, ih hrest, openers_congr hrest, show t.lexeme = u.lexeme from hhead]

theorem Level.congr {ts us : List Token} (h : Level ts)
    (hsame : ts.map (·.lexeme) = us.map (·.lexeme)) :
    Level us := by
  intro before
  have hlexemes :
      (ts.reverse ++ before).map (·.lexeme) = (us.reverse ++ before).map (·.lexeme) := by
    rw [List.map_append, List.map_append, List.map_reverse, List.map_reverse, hsame]
  rw [← openers_congr hlexemes, ← nests_congr hlexemes]
  exact h before

end Grammar

namespace Mark

private def Levels (ms : List Mark) : Prop :=
  ∀ ⦃ts rest : List Token⦄, SpelledAll false ms ts rest → Level ts

variable {ms ns : List Mark} {mss : List (List Mark)} {opener closer : Symbol} {d : Delimiter}

private theorem levels_nil : Levels [] := by
  intro ts rest h
  simp only [SpelledAll] at h
  rw [h]
  exact .nil

private theorem Levels.append (h : Levels ms) (k : Levels ns) : Levels (ms ++ ns) := by
  intro ts rest hspelled
  obtain ⟨us, vs, rfl, hms, hns⟩ := spelledAll_append.1 hspelled
  exact (h hms).append (k hns)

private theorem Levels.cons {m : Mark} (h : Levels [m]) (k : Levels ms) : Levels (m :: ms) :=
  h.append k

private theorem levels_lexeme {l : Lexeme} (ho : l.opens? = none) (hc : l.closes? = none)
    (follow : Follow) :
    Levels [.lexeme l follow] := by
  intro ts rest h
  rw [spelledAll_singleton, Mark.Spelled] at h
  obtain ⟨t, rfl, rfl, _⟩ := h
  exact .plain ho hc

private theorem levels_node {span : Span} (h : Levels ms) : Levels [.node span ms] := by
  intro ts rest hspelled
  rw [spelledAll_singleton, Mark.Spelled] at hspelled
  exact h hspelled.2

private theorem levels_seam (open_ : Bool) : Levels [.seam open_] := by
  intro ts rest h
  rw [spelledAll_singleton, Mark.Spelled] at h
  rcases h with h | ⟨rfl, _⟩
  · cases h
  · exact .nil

private theorem levels_bars : Levels [.bars] := by
  intro ts rest h
  rw [spelledAll_singleton, Mark.Spelled] at h
  rcases h with h | h
  · obtain ⟨t, rfl, ht⟩ := List.map_eq_singleton_iff.1 h
    exact .plain (by rw [ht]; rfl) (by rw [ht]; rfl)
  · obtain ⟨t, us, rfl, ht, hus⟩ := List.map_eq_cons_iff.1 h
    obtain ⟨u, rfl, hu⟩ := List.map_eq_singleton_iff.1 hus
    exact (Level.plain (t := t) (by rw [ht]; rfl) (by rw [ht]; rfl)).append
      (.plain (by rw [hu]; rfl) (by rw [hu]; rfl))

private theorem levels_quoted (quote : Quote) (parts : List Part) :
    Levels [.quoted quote parts] := by
  intro ts rest h
  rw [spelledAll_singleton] at h
  cases quote <;> rw [Mark.Spelled] at h
  all_goals
    obtain ⟨t, raw, _, rfl, ht, _⟩ := h
    exact .plain (by rw [ht]; rfl) (by rw [ht]; rfl)

private theorem levels_bytes (value : List UInt8) : Levels [.bytes value] := by
  intro ts rest h
  rw [spelledAll_singleton, Mark.Spelled] at h
  obtain ⟨t, raw, rfl, ht, _⟩ := h
  exact .plain (by rw [ht]; rfl) (by rw [ht]; rfl)

private theorem levels_number (kind : NumberClass) (raw : String) : Levels (number kind raw) := by
  unfold number
  split
  · exact (levels_lexeme rfl rfl _).cons (levels_lexeme rfl rfl _)
  · exact levels_lexeme rfl rfl _

private theorem levels_rangeMark (inclusive : Bool) (follow : Follow) :
    Levels [rangeMark inclusive follow] := by
  cases inclusive <;> exact levels_lexeme rfl rfl _

private theorem Levels.brackets (ho : (Lexeme.symbol opener).opens? = some d)
    (hc : (Lexeme.symbol closer).closes? = some d) (more : Bool) (h : Levels ms) :
    Levels (symbol opener :: ms ++ [if more then .trailing closer else symbol closer]) := by
  intro ts rest hspelled
  obtain ⟨us, vs, rfl, hms, hcloser⟩ := spelledAll_append.1 hspelled
  simp only [SpelledAll, Mark.Spelled] at hms
  obtain ⟨_, us, rfl, ⟨t, rfl, ht, _⟩, hms⟩ := hms
  rw [spelledAll_singleton] at hcloser
  have closed {ws : List Token} {u : Token} (hw : Level ws) (hu : u.lexeme = .symbol closer) :
      Level ([t] ++ us ++ (ws ++ [u])) := by
    have hlevel : Level (t :: (us ++ ws) ++ [u]) :=
      .brackets (by rw [ht]; exact ho) (by rw [hu]; exact hc) ((h hms).append hw)
    simpa only [List.cons_append, List.nil_append, List.append_assoc] using hlevel
  cases more with
  | false =>
    rw [if_neg Bool.false_ne_true, Mark.Spelled] at hcloser
    obtain ⟨u, rfl, hu, _⟩ := hcloser
    exact closed .nil hu
  | true =>
    rw [if_pos rfl, Mark.Spelled] at hcloser
    rcases hcloser with h | h
    · obtain ⟨u, rfl, hu⟩ := List.map_eq_singleton_iff.1 h
      exact closed .nil hu
    · obtain ⟨comma, ws, rfl, hcomma, hws⟩ := List.map_eq_cons_iff.1 h
      obtain ⟨u, rfl, hu⟩ := List.map_eq_singleton_iff.1 hws
      exact closed (.plain (by rw [hcomma]; rfl) (by rw [hcomma]; rfl)) hu

private theorem Levels.bracketed (ho : (Lexeme.symbol opener).opens? = some d)
    (hc : (Lexeme.symbol closer).closes? = some d) (h : Levels ms) :
    Levels ([symbol opener] ++ ms ++ [symbol closer]) := h.brackets ho hc false

private theorem levels_separated {separator : Symbol} (ho : (Lexeme.symbol separator).opens? = none)
    (hc : (Lexeme.symbol separator).closes? = none) (h : ∀ ms ∈ mss, Levels ms) :
    Levels (separated separator mss) := by
  have rest (mss : List (List Mark)) (h : ∀ ms ∈ mss, Levels ms) :
      Levels (mss.flatMap (symbol separator :: ·)) := by
    induction mss with
    | nil => exact levels_nil
    | cons ms mss ih =>
      obtain ⟨hms, hmss⟩ := List.forall_mem_cons.1 h
      rw [List.flatMap_cons]
      exact ((levels_lexeme ho hc _).cons hms).append (ih hmss)
  cases mss with
  | nil => exact levels_nil
  | cons ms mss =>
    obtain ⟨hms, hmss⟩ := List.forall_mem_cons.1 h
    exact hms.append (rest mss hmss)

private theorem levels_listed (ho : (Lexeme.symbol opener).opens? = some d)
    (hc : (Lexeme.symbol closer).closes? = some d) (more : Bool) (h : ∀ ms ∈ mss, Levels ms) :
    Levels (listed opener closer more mss) := by
  cases mss with
  | nil => exact levels_nil.brackets ho hc false
  | cons ms mss => exact (levels_separated rfl rfl h).brackets ho hc more

private theorem levels_barred (h : ∀ ms ∈ mss, Levels ms) :
    Levels (listed .bar .bar false mss) := by
  have hbar : Levels [symbol .bar] := levels_lexeme rfl rfl _
  cases mss with
  | nil => exact hbar.cons hbar
  | cons ms mss => exact (hbar.cons (levels_separated rfl rfl h)).append hbar

end Mark

section Trees

open Mark

private theorem Name.levels (n : Name) (follow : Follow) : Levels (n.marks follow) :=
  levels_node (levels_lexeme rfl rfl _)

private theorem Lexeme.ofWord_level (text : String) :
    (ofWord text).opens? = none ∧ (ofWord text).closes? = none := by
  unfold ofWord
  split <;> exact ⟨rfl, rfl⟩

private theorem Name.levels_step (n : Name) : Levels n.stepMarks :=
  levels_node (levels_lexeme (Lexeme.ofWord_level _).1 (Lexeme.ofWord_level _).2 _)

private theorem Name.levels_each (ns : List Name) : ∀ ms ∈ Name.marksEach ns, Levels ms := by
  intro ms hms
  obtain ⟨n, _, rfl⟩ := List.mem_map.1 hms
  exact n.levels .any

private theorem BinaryOp.levels (op : BinaryOp) : Levels [plain op.lexeme] := by
  cases op <;> exact levels_lexeme rfl rfl _

private theorem UnaryOp.levels (op : UnaryOp) : Levels [.lexeme op.lexeme op.follow] := by
  cases op <;> exact levels_lexeme rfl rfl _

private theorem Mark.levels_keyword (k : Keyword) : Levels [keyword k] := levels_lexeme rfl rfl _

private theorem Name.levels_path (path : List Name) :
    Levels (separated .scope (Name.marksEach path)) :=
  levels_separated rfl rfl (Name.levels_each path)

mutual

private theorem Expr.levels : (e : Expr) → Levels e.marks
  | .pipe s left right => by
    rw [Expr.marks]
    exact levels_node ((left.levels.append (levels_lexeme rfl rfl _)).append right.levels)
  | .binary s op left right => by
    rw [Expr.marks]
    exact levels_node ((left.levels.append op.levels).append right.levels)
  | .unary s op operand => by
    rw [Expr.marks]
    exact levels_node (op.levels.cons operand.levels)
  | .call s callee args => by
    rw [Expr.marks]
    exact levels_node (callee.levels.append (levels_listed rfl rfl false (Expr.levels_each args)))
  | .member s object field => by
    rw [Expr.marks]
    exact levels_node ((object.levels.append (levels_lexeme rfl rfl _)).append (field.levels .any))
  | .index s object index => by
    rw [Expr.marks, List.append_assoc, List.append_assoc, ← List.append_assoc [_]]
    exact levels_node (object.levels.append (index.levels.bracketed rfl rfl))
  | .literal l => by
    rw [Expr.marks]
    exact levels_node l.levels
  | .name n => by
    rw [Expr.marks]
    exact levels_node (n.levels .any)
  | .env s n => by
    rw [Expr.marks]
    exact levels_node ((levels_keyword _).cons ((levels_lexeme rfl rfl _).cons (n.levels .any)))
  | .paren s inner => by
    rw [Expr.marks]
    exact levels_node (inner.levels.bracketed rfl rfl)
  | .array s elements => by
    rw [Expr.marks]
    exact levels_node (levels_listed rfl rfl true (Expr.levels_each elements))
  | .object o => by
    rw [Expr.marks]
    exact levels_node o.levels
  | .block b => by
    rw [Expr.marks]
    exact levels_node b.levels
  | .conditional c => by
    rw [Expr.marks]
    exact levels_node c.levels
  | .choice c => by
    rw [Expr.marks]
    exact levels_node c.levels
  | .lambda s [] body => by
    rw [Expr.marks]
    exact levels_node (levels_bars.append body.levels)
  | .lambda s (n :: ns) body => by
    rw [Expr.marks]
    exact levels_node ((levels_barred (Name.levels_each (n :: ns))).append body.levels)
  | .run r => by
    rw [Expr.marks]
    exact levels_node r.levels
  | .emit s none none => by
    rw [Expr.marks]
    exact levels_node (levels_lexeme rfl rfl _)
  | .emit s none (some args) => by
    rw [Expr.marks]
    exact levels_node
      ((levels_keyword _).cons (levels_listed rfl rfl false (Expr.levels_each args)))
  | .emit s (some format) none => by
    rw [Expr.marks]
    exact levels_node
      ((levels_lexeme rfl rfl _).cons ((levels_lexeme rfl rfl _).cons (format.levels _)))
  | .emit s (some format) (some args) => by
    rw [Expr.marks]
    have hformat := (levels_lexeme (l := .keyword .emit) rfl rfl .joined).cons
      ((levels_lexeme (l := .symbol .dot) rfl rfl .any).cons (format.levels .joined))
    exact levels_node (hformat.append (levels_listed rfl rfl false (Expr.levels_each args)))
  | .range s none none inclusive => by
    rw [Expr.marks]
    exact levels_node (levels_rangeMark _ _)
  | .range s (some start) none inclusive => by
    rw [Expr.marks]
    exact levels_node (start.levels.append (levels_rangeMark _ _))
  | .range s none (some stop) inclusive => by
    rw [Expr.marks]
    exact levels_node ((levels_rangeMark _ _).cons stop.levels)
  | .range s (some start) (some stop) inclusive => by
    rw [Expr.marks]
    exact levels_node (start.levels.append ((levels_rangeMark _ _).cons stop.levels))

private theorem Expr.levels_each : (es : List Expr) → ∀ ms ∈ Expr.marksEach es, Levels ms
  | [] => by
    rw [Expr.marksEach]
    nofun
  | e :: es => by
    rw [Expr.marksEach]
    exact List.forall_mem_cons.2 ⟨e.levels, Expr.levels_each es⟩

private theorem Literal.levels : (l : Literal) → Levels l.marks
  | .null s | .bool s _ => by
    rw [Literal.marks]
    exact levels_node (levels_keyword _)
  | .integer s raw _ | .float s raw _ | .duration s raw _ _ | .size s raw _ _ => by
    rw [Literal.marks]
    exact levels_node (levels_number _ raw)
  | .string l => by
    rw [Literal.marks]
    exact levels_node l.levels
  | .bytes s value => by
    rw [Literal.marks]
    exact levels_node (levels_bytes value)

private theorem StringLiteral.levels : (l : StringLiteral) → Levels l.marks
  | ⟨quote, parts, s⟩ => by
    rw [StringLiteral.marks]
    exact levels_node (levels_quoted quote _)

private theorem Object.levels : (o : Object) → Levels o.marks
  | ⟨fields, s⟩ => by
    rw [Object.marks]
    exact levels_node (levels_listed rfl rfl true (Field.levels_each fields))

private theorem Field.levels_each : (fields : List Field) → ∀ ms ∈ Field.marksEach fields, Levels ms
  | [] => by
    rw [Field.marksEach]
    nofun
  | field :: fields => by
    rw [Field.marksEach]
    exact List.forall_mem_cons.2 ⟨field.levels, Field.levels_each fields⟩

private theorem Field.levels : (field : Field) → Levels field.marks
  | ⟨key, value, s⟩ => by
    rw [Field.marks]
    exact levels_node ((key.levels.append (levels_lexeme rfl rfl _)).append value.levels)

private theorem Key.levels : (k : Key) → Levels k.marks
  | .name n => by
    rw [Key.marks]
    exact n.levels .any
  | .string l => by
    rw [Key.marks]
    exact l.levels

private theorem Block.levels : (b : Block) → Levels b.marks
  | ⟨items, s⟩ => by
    rw [Block.marks]
    exact levels_node (((levels_seam false).cons (Item.levels_all items)).bracketed rfl rfl)

private theorem Item.levels_all : (items : List Item) → Levels (Item.marksAll items)
  | [] => by
    rw [Item.marksAll]
    exact levels_nil
  | item :: items => by
    rw [Item.marksAll]
    exact (item.levels.append (levels_seam _)).append (Item.levels_all items)

private theorem Item.levels : (item : Item) → Levels item.marks
  | .decl d => by
    rw [Item.marks]
    exact levels_node d.levels
  | .expr e => by
    rw [Item.marks]
    exact levels_node e.levels

private theorem Decl.levels : (d : Decl) → Levels d.marks
  | .operation s n protocol method target query metadata => by
    have hhead :
        Levels ([keyword .op] ++ n.marks .any ++ [symbol .assign] ++ protocol.marks .any ++
          [symbol .dot] ++ method.marks .any ++ target.marks) := by
      refine Levels.append (.append (.append (.append (.append (.append ?_ ?_) ?_) ?_) ?_) ?_)
        target.levels
      · exact levels_keyword _
      · exact n.levels .any
      · exact levels_lexeme rfl rfl _
      · exact protocol.levels .any
      · exact levels_lexeme rfl rfl _
      · exact method.levels .any
    match query, metadata with
    | none, none =>
      rw [Decl.marks]
      exact levels_node ((hhead.append levels_nil).append levels_nil)
    | some query, none =>
      rw [Decl.marks]
      exact levels_node ((hhead.append query.levels).append levels_nil)
    | none, some metadata =>
      rw [Decl.marks]
      exact levels_node ((hhead.append levels_nil).append metadata.levels)
    | some query, some metadata =>
      rw [Decl.marks]
      exact levels_node ((hhead.append query.levels).append metadata.levels)
  | .profile s n fields => by
    rw [Decl.marks]
    exact levels_node (((levels_keyword _).cons (n.levels .any)).append fields.levels)
  | .function s n params body => by
    rw [Decl.marks]
    have hparams : Levels (listed .leftParen .rightParen false (Name.marksEach params)) :=
      levels_listed rfl rfl false (Name.levels_each params)
    exact levels_node
      ((((levels_keyword _).cons (n.levels .any)).append hparams).append body.levels)
  | .binding s pattern value => by
    rw [Decl.marks]
    exact levels_node
      ((((levels_keyword _).cons pattern.levels).append (levels_lexeme rfl rfl _)).append
        value.levels)
  | .use s target none => by
    rw [Decl.marks]
    exact levels_node (((levels_keyword _).cons target.levels).append levels_nil)
  | .use s target (some body) => by
    rw [Decl.marks]
    exact levels_node (((levels_keyword _).cons target.levels).append body.levels)

private theorem Body.levels : (body : Body) → Levels body.marks
  | .block b => by
    rw [Body.marks]
    exact b.levels
  | .expr e => by
    rw [Body.marks]
    exact (levels_lexeme rfl rfl _).cons e.levels

private theorem UseTarget.levels : (target : UseTarget) → Levels target.marks
  | .glob path => by
    rw [UseTarget.marks]
    exact (Name.levels_path path).append ((levels_lexeme rfl rfl _).cons (levels_lexeme rfl rfl _))
  | .group path names => by
    rw [UseTarget.marks]
    exact ((Name.levels_path path).append (levels_lexeme rfl rfl _)).append
      (levels_listed rfl rfl false (Name.levels_each names))
  | .path path => by
    rw [UseTarget.marks]
    exact Name.levels_path path
  | .expr e => by
    rw [UseTarget.marks]
    exact e.levels

private theorem Pattern.levels : (p : Pattern) → Levels p.marks
  | .name n => by
    rw [Pattern.marks]
    exact levels_node (n.levels .any)
  | .wildcard s => by
    rw [Pattern.marks]
    exact levels_node (levels_lexeme rfl rfl _)
  | .literal l => by
    rw [Pattern.marks]
    exact levels_node l.levels
  | .array s elements => by
    rw [Pattern.marks]
    exact levels_node (levels_listed rfl rfl true (Pattern.levels_each elements))
  | .object s fields => by
    rw [Pattern.marks]
    exact levels_node (levels_listed rfl rfl true (FieldPattern.levels_each fields))
  | .range s none none inclusive => by
    rw [Pattern.marks]
    exact levels_node (levels_rangeMark _ _)
  | .range s (some start) none inclusive => by
    rw [Pattern.marks]
    exact levels_node (start.levels.append (levels_rangeMark _ _))
  | .range s none (some stop) inclusive => by
    rw [Pattern.marks]
    exact levels_node ((levels_rangeMark _ _).cons stop.levels)
  | .range s (some start) (some stop) inclusive => by
    rw [Pattern.marks]
    exact levels_node (start.levels.append ((levels_rangeMark _ _).cons stop.levels))

private theorem Pattern.levels_each : (ps : List Pattern) → ∀ ms ∈ Pattern.marksEach ps, Levels ms
  | [] => by
    rw [Pattern.marksEach]
    nofun
  | p :: ps => by
    rw [Pattern.marksEach]
    exact List.forall_mem_cons.2 ⟨p.levels, Pattern.levels_each ps⟩

private theorem FieldPattern.levels_each :
    (fields : List FieldPattern) → ∀ ms ∈ FieldPattern.marksEach fields, Levels ms
  | [] => by
    rw [FieldPattern.marksEach]
    nofun
  | field :: fields => by
    rw [FieldPattern.marksEach]
    exact List.forall_mem_cons.2 ⟨field.levels, FieldPattern.levels_each fields⟩

private theorem FieldPattern.levels : (field : FieldPattern) → Levels field.marks
  | ⟨key, none, s⟩ => by
    rw [FieldPattern.marks]
    exact levels_node ((key.levels .any).append levels_nil)
  | ⟨key, some p, s⟩ => by
    rw [FieldPattern.marks]
    exact levels_node ((key.levels .any).append ((levels_lexeme rfl rfl _).cons p.levels))

private theorem Conditional.levels : (c : Conditional) → Levels c.marks
  | ⟨condition, consequence, none, s⟩ => by
    rw [Conditional.marks]
    exact levels_node
      ((((levels_keyword _).cons condition.levels).append consequence.levels).append levels_nil)
  | ⟨condition, consequence, some (.block b), s⟩ => by
    rw [Conditional.marks]
    have hhead := ((levels_keyword .if_).cons condition.levels).append consequence.levels
    exact levels_node (hhead.append ((levels_keyword _).cons b.levels))
  | ⟨condition, consequence, some (.conditional c), s⟩ => by
    rw [Conditional.marks]
    have hhead := ((levels_keyword .if_).cons condition.levels).append consequence.levels
    exact levels_node (hhead.append ((levels_keyword _).cons c.levels))

private theorem Choice.levels : (c : Choice) → Levels c.marks
  | ⟨subject, arms, s⟩ => by
    rw [Choice.marks]
    exact levels_node
      (((levels_keyword _).cons subject.levels).append
        (levels_listed rfl rfl true (Arm.levels_each arms)))

private theorem Arm.levels_each : (arms : List Arm) → ∀ ms ∈ Arm.marksEach arms, Levels ms
  | [] => by
    rw [Arm.marksEach]
    nofun
  | arm :: arms => by
    rw [Arm.marksEach]
    exact List.forall_mem_cons.2 ⟨arm.levels, Arm.levels_each arms⟩

private theorem Arm.levels : (arm : Arm) → Levels arm.marks
  | ⟨pattern, none, body, s⟩ => by
    rw [Arm.marks]
    exact levels_node
      (((pattern.levels.append levels_nil).append (levels_lexeme rfl rfl _)).append body.levels)
  | ⟨pattern, some guard, body, s⟩ => by
    rw [Arm.marks]
    have hguard := pattern.levels.append ((levels_keyword .if_).cons guard.levels)
    exact levels_node ((hguard.append (levels_lexeme rfl rfl _)).append body.levels)

private theorem Run.levels : (r : Run) → Levels r.marks
  | .inline s target none none => by
    rw [Run.marks]
    exact levels_node
      ((((levels_keyword _).cons (target.levels .any)).append levels_nil).append levels_nil)
  | .inline s target (some args) none => by
    rw [Run.marks]
    exact levels_node
      ((((levels_keyword _).cons (target.levels .any)).append args.levels).append levels_nil)
  | .inline s target none (some variations) => by
    rw [Run.marks]
    exact levels_node
      ((((levels_keyword _).cons (target.levels .any)).append levels_nil).append variations.levels)
  | .inline s target (some args) (some variations) => by
    rw [Run.marks]
    exact levels_node
      ((((levels_keyword _).cons (target.levels .any)).append args.levels).append variations.levels)
  | .block s items => by
    rw [Run.marks]
    exact levels_node
      ((levels_keyword _).cons
        (((levels_seam false).cons (RunItem.levels_all items)).bracketed rfl rfl))

private theorem RunItem.levels_all : (items : List RunItem) → Levels (RunItem.marksAll items)
  | [] => by
    rw [RunItem.marksAll]
    exact levels_nil
  | item :: items => by
    rw [RunItem.marksAll]
    exact (item.levels.append (levels_seam _)).append (RunItem.levels_all items)

private theorem Variations.levels : (v : Variations) → Levels v.marks
  | ⟨.product, axes, s⟩ => by
    rw [Variations.marks]
    exact levels_node ((levels_keyword _).cons axes.levels)
  | ⟨.zip, axes, s⟩ => by
    rw [Variations.marks]
    exact levels_node ((levels_keyword _).cons ((levels_keyword _).cons axes.levels))

private theorem RunItem.levels : (item : RunItem) → Levels item.marks
  | .step s n operation none => by
    rw [RunItem.marks]
    exact levels_node
      (((n.levels_step.append (levels_lexeme rfl rfl _)).append (operation.levels .any)).append
        levels_nil)
  | .step s n operation (some args) => by
    rw [RunItem.marks]
    exact levels_node
      (((n.levels_step.append (levels_lexeme rfl rfl _)).append (operation.levels .any)).append
        args.levels)
  | .path s chain => by
    rw [RunItem.marks]
    have hchain : Levels (separated .arrow (Name.marksEach chain)) :=
      levels_separated rfl rfl (Name.levels_each chain)
    exact levels_node (((levels_keyword _).cons (levels_lexeme rfl rfl _)).append hchain)
  | .decl d => by
    rw [RunItem.marks]
    exact levels_node d.levels

end

end Trees

/-- Where nothing is wrong with a script, its brackets are well nested, and all are closed. -/
theorem parse_level (source : String) (limit : Nat) (h : (parse source limit).2 = []) :
    Level (Lexer.ofString source 0).tokenizeFiltered.1 :=
  ((Mark.levels_seam false).cons (Item.levels_all _)) (parse_keeps_every_token source limit h)

end ApiScript
