import ApiScript.Proofs.Lexing.Embedded
import ApiScript.Proofs.Spelling.Node
import ApiScript.Proofs.Spelling.Program

set_option autoImplicit false
set_option relaxedAutoImplicit false

/-!
The spans of all nodes that a parse answers with: each is that of the node's tokens, in the source
or in code embedded in it, within the span of the node around it and behind its neighbour's.
-/

namespace ApiScript

open Grammar

def Span.Within (a b : Span) : Prop := b.start ≤ a.start ∧ a.stop ≤ b.stop

def Span.Before (a b : Span) : Prop := a.stop ≤ b.start

/-- The nodes stand in the span, in order and apart. -/
def Span.Encloses (span : Span) (ns : List Node) : Prop :=
  (∀ n ∈ ns, n.span.Within span) ∧ ns.Pairwise fun a b => a.span.Before b.span

private theorem Span.Encloses.nil (span : Span) : span.Encloses [] := ⟨by simp, .nil⟩

structure Token.InOrder (ts : List Token) : Prop where
  ordered : ts.Pairwise fun t u => t.span.stop ≤ u.span.start
  nonempty : ∀ t ∈ ts, t.span.start < t.span.stop

namespace Token.InOrder

variable {ts us : List Token}

theorem left (h : InOrder (ts ++ us)) : InOrder ts :=
  ⟨(List.pairwise_append.1 h.ordered).1, fun t ht => h.nonempty t (List.mem_append_left _ ht)⟩

theorem right (h : InOrder (ts ++ us)) : InOrder us :=
  ⟨(List.pairwise_append.1 h.ordered).2.1, fun t ht => h.nonempty t (List.mem_append_right _ ht)⟩

theorem apart (h : InOrder (ts ++ us)) {t u : Token} (ht : t ∈ ts) (hu : u ∈ us) :
    t.span.stop ≤ u.span.start :=
  (List.pairwise_append.1 h.ordered).2.2 t ht u hu

theorem within {span : Span} (h : InOrder ts) (hs : span.Covers ts) :
    ∀ t ∈ ts, t.span.Within span := by
  obtain ⟨⟨first, hfirst, hstart⟩, last, hlast, hstop⟩ := hs
  intro t ht
  constructor
  · obtain ⟨behind, rfl⟩ := List.head?_eq_some_iff.1 hfirst
    rcases List.mem_cons.1 ht with rfl | ht
    · exact Nat.le_of_eq hstart
    · have hle := (List.pairwise_cons.1 h.ordered).1 t ht
      have hlt := h.nonempty first (List.mem_cons_self ..)
      omega
  · obtain ⟨front, rfl⟩ := List.getLast?_eq_some_iff.1 hlast
    rcases List.mem_append.1 ht with ht | ht
    · have hle := h.apart ht (List.mem_singleton_self last)
      have hlt := h.nonempty last (by simp)
      omega
    · rw [List.mem_singleton.1 ht]
      exact Nat.le_of_eq hstop.symm

end Token.InOrder

theorem Span.Covers.mem {span : Span} {ts : List Token} (h : span.Covers ts) :
    (∃ t ∈ ts, span.start = t.span.start) ∧ ∃ t ∈ ts, span.stop = t.span.stop := by
  obtain ⟨⟨first, hfirst, hstart⟩, last, hlast, hstop⟩ := h
  exact ⟨⟨first, List.mem_of_mem_head? hfirst, hstart⟩, last, List.mem_of_getLast? hlast, hstop⟩

namespace Node.Runs

variable {ns : List Node} {ts rest : List Token}

private theorem written (h : Runs ns ts rest) {n : Node} (hn : n ∈ ns) :
    ∃ front us behind, ts = front ++ us ++ behind ∧ n.Written us (behind ++ rest) := by
  induction h with
  | nil => cases hn
  | @skip _ ts _ _ _ ih =>
    obtain ⟨front, us, behind, rfl, hus⟩ := ih hn
    exact ⟨ts ++ front, us, behind, by simp only [List.append_assoc], hus⟩
  | @node _ _ ts _ _ hfirst _ ih =>
    rcases List.mem_cons.1 hn with rfl | hn
    · exact ⟨[], _, _, rfl, hfirst⟩
    · obtain ⟨front, us, behind, rfl, hus⟩ := ih hn
      exact ⟨ts ++ front, us, behind, by simp only [List.append_assoc], hus⟩

/-- The spans of nodes with runs of tokens of their own lie apart, inside of a span that all the
tokens are in. -/
private theorem encloses {span : Span} (h : Runs ns ts rest) (hts : Token.InOrder ts)
    (hs : ∀ t ∈ ts, t.span.Within span) : span.Encloses ns := by
  constructor
  · intro n hn
    obtain ⟨front, us, behind, rfl, hus⟩ := h.written hn
    obtain ⟨⟨t, ht, hstart⟩, u, hu, hstop⟩ := hus.covers.mem
    rw [Span.Within, hstart, hstop]
    exact ⟨(hs t (by simp [ht])).1, (hs u (by simp [hu])).2⟩
  · clear hs
    induction h with
    | nil => exact .nil
    | skip _ ih => exact ih hts.right
    | node hfirst hrest ih =>
      refine List.pairwise_cons.2 ⟨fun n hn => ?_, ih hts.right⟩
      obtain ⟨front, us, behind, rfl, hus⟩ := hrest.written hn
      obtain ⟨t, ht, hstop⟩ := hfirst.covers.mem.2
      obtain ⟨u, hu, hstart⟩ := hus.covers.mem.1
      rw [Span.Before, hstop, hstart]
      exact hts.apart ht (by simp [hu])

end Node.Runs

abbrev Excerpt.tokens (text : String) (offset : Nat) : List Token :=
  (State.ofString text offset).after

theorem Excerpt.inOrder (text : String) (offset : Nat) : Token.InOrder (tokens text offset) :=
  have h := State.sound_ofString text offset
  ⟨h.ordered, h.nonempty⟩

/-- The node stands for tokens of the source, or of code embedded in it. -/
def Node.InExcerpt (source : String) (n : Node) : Prop :=
  ∃ text offset, Excerpt source text offset ∧ ∃ front ts behind,
    Excerpt.tokens text offset = front ++ ts ++ behind ∧ n.Written ts behind

/-- The node's span is a nonempty piece of the source, from the start of the node's first token to
the end of its last one. -/
structure Node.Placed (source : String) (n : Node) : Prop where
  slice : ∃ cs ≠ [], Text.slice? n.span.start n.span.stop source.toList = some cs
  tokens : ∃ text offset, Excerpt source text offset ∧ ∃ front ts behind,
    Excerpt.tokens text offset = front ++ ts ++ behind ∧ n.Written ts behind ∧ n.span.Covers ts

private theorem Text.between {cs front front' behind behind' : List Char} (h : cs = front ++ behind)
    (h' : cs = front' ++ behind') (hlt : byteSize front < byteSize front') :
    ∃ mid, mid ≠ [] ∧ cs = front ++ mid ++ behind' ∧ byteSize front' = byteSize front +
      byteSize mid := by
  have hprefix : front <+: front' := by
    rcases List.prefix_or_prefix_of_prefix (⟨behind, h.symm⟩ : front <+: cs)
      ⟨behind', h'.symm⟩ with hp | hp
    · exact hp
    · obtain ⟨mid, rfl⟩ := hp
      rw [byteSize_append] at hlt
      omega
  obtain ⟨mid, rfl⟩ := hprefix
  refine ⟨mid, ?_, h', byteSize_append _ _⟩
  rintro rfl
  simp at hlt

private theorem Node.InExcerpt.placed {source : String} {n : Node} (h : n.InExcerpt source) :
    n.Placed source := by
  obtain ⟨text, offset, he, front, ts, behind, htokens, hts⟩ := h
  refine ⟨?_, text, offset, he, front, ts, behind, htokens, hts, hts.covers⟩
  obtain ⟨⟨t, ht, hstart⟩, u, hu, hstop⟩ := hts.covers.mem
  have horder : Token.InOrder ts := (htokens ▸ Excerpt.inOrder text offset).left.right
  have hlt : n.span.start < n.span.stop := by
    have hwithin := horder.within hts.covers t ht
    have hnonempty := horder.nonempty t ht
    have := hwithin.2
    omega
  have hat (t : Token) (ht : t ∈ ts) : t.At text.toList offset :=
    (State.ofString_at text offset).1 t (by rw [Excerpt.tokens] at htokens; simp [htokens, ht])
  obtain ⟨front₁, mid₁, behind₁, htext₁, _, hspan₁, _⟩ := hat t ht
  obtain ⟨front₂, mid₂, behind₂, htext₂, _, hspan₂, _⟩ := hat u hu
  obtain ⟨left, right, hsource, rfl⟩ := he.placed
  rw [hspan₁] at hstart
  rw [hspan₂] at hstop
  have hfront : source.toList = (left ++ front₁) ++ (mid₁ ++ behind₁ ++ right) := by
    simp [hsource, htext₁]
  have hback : source.toList = (left ++ (front₂ ++ mid₂)) ++ (behind₂ ++ right) := by
    simp [hsource, htext₂]
  obtain ⟨mid, hmid, hcs, hsize⟩ := Text.between hfront hback (by
    simp only [Text.byteSize_append] at hstart hstop ⊢
    omega)
  refine ⟨mid, hmid, ?_⟩
  have hslice := Text.slice?_append (left ++ front₁) mid (behind₂ ++ right)
  rw [← hcs, ← hsize] at hslice
  simp only [Text.byteSize_append] at hslice hstart hstop
  rw [hstart, hstop, Nat.add_assoc]
  exact hslice

private theorem Part.SpelledAll.written {parts : List StringPart} {segments : List Quoted.Segment}
    (h : Part.SpelledAll true (StringPart.marksEach parts) segments) (quote : Quote) (s : Span)
    {c : Node} (hc : c ∈ (Node.string ⟨quote, parts, s⟩).children) :
    ∃ text offset, .code text offset ∈ segments ∧
      c.Written (Excerpt.tokens text offset) [] := by
  induction parts generalizing segments with
  | nil => cases hc
  | cons part parts ih =>
    cases part with
    | text text =>
      obtain ⟨rest, rfl, hrest⟩ := h
      obtain ⟨text, offset, hmem, hwritten⟩ := ih hrest hc
      exact ⟨text, offset, List.mem_cons_of_mem _ hmem, hwritten⟩
    | code e =>
      obtain ⟨text, offset, rest, rfl, _, _, he, hrest⟩ := h
      rcases List.mem_cons.1 hc with rfl | hc
      · exact ⟨text, offset, List.mem_cons_self .., he⟩
      · obtain ⟨text, offset, hmem, hwritten⟩ := ih hrest hc
        exact ⟨text, offset, List.mem_cons_of_mem _ hmem, hwritten⟩

private theorem Node.Written.inside {n : Node} {text : String} {offset : Nat}
    (h : n.Written (Excerpt.tokens text offset) []) :
    offset ≤ n.span.start ∧ n.span.stop ≤ offset + Text.byteSize text.toList := by
  obtain ⟨⟨t, ht, hstart⟩, u, hu, hstop⟩ := h.covers.mem
  have hsound := State.sound_ofString text offset
  have harea :
      (State.ofString text offset).area = ⟨offset, offset + Text.byteSize text.toList⟩ := by
    rw [← Text.utf8ByteSize_eq]
    rfl
  have hinside := hsound.inside
  rw [harea] at hinside
  rw [hstart, hstop]
  exact ⟨(hinside t ht).1, (hinside u hu).2⟩

private theorem Part.SpelledAll.ordered {parts : List StringPart} {segments : List Quoted.Segment}
    (h : Part.SpelledAll true (StringPart.marksEach parts) segments)
    (hcodes : (segments.filterMap Quoted.Segment.code?).Pairwise fun a b =>
      a.2 + Text.byteSize a.1.toList ≤ b.2) (quote : Quote) (s : Span) :
    (Node.string ⟨quote, parts, s⟩).children.Pairwise fun a b => a.span.Before b.span := by
  induction parts generalizing segments with
  | nil => exact .nil
  | cons part parts ih =>
    cases part with
    | text text =>
      obtain ⟨rest, rfl, hrest⟩ := h
      exact ih hrest hcodes
    | code e =>
      obtain ⟨text, offset, rest, rfl, _, _, he, hrest⟩ := h
      obtain ⟨hfirst, hcodes⟩ := List.pairwise_cons.1 hcodes
      refine List.pairwise_cons.2 ⟨fun c hc => ?_, ih hrest hcodes⟩
      obtain ⟨text', offset', hmem, hwritten⟩ := hrest.written quote s hc
      have hle := hfirst _ (List.mem_filterMap.2 ⟨_, hmem, rfl⟩)
      have hstop := (Node.Written.inside (n := .expr e) he).2
      have hstart := hwritten.inside.1
      exact Nat.le_trans hstop (Nat.le_trans hle hstart)

private theorem Part.ofText_children {parts : List StringPart} {text : String}
    (h : StringPart.marksEach parts = Part.ofText text) (quote : Quote) (s : Span) :
    (Node.string ⟨quote, parts, s⟩).children = [] := by
  unfold Part.ofText at h
  split at h
  · cases parts with
    | nil => rfl
    | cons part parts => cases part <;> cases h
  · cases parts with
    | nil => cases h
    | cons part parts =>
      cases part with
      | code e => cases h
      | text text =>
        cases parts with
        | nil => rfl
        | cons part parts => cases part <;> cases h

section Children

variable {source : String} {n : Node}

/-- The children of a node stand for tokens too, inside of its span, in order and apart. -/
theorem Node.InExcerpt.children (h : n.InExcerpt source) :
    (∀ c ∈ n.children, c.InExcerpt source) ∧ n.span.Encloses n.children := by
  obtain ⟨text, offset, he, front, ts, behind, htokens, hts⟩ := h
  have horder : Token.InOrder ts := (htokens ▸ Excerpt.inOrder text offset).left.right
  by_cases hstring : ∃ s, n = .string s
  · obtain ⟨⟨quote, parts, s⟩, rfl⟩ := hstring
    have hcovers := hts.covers
    change Mark.SpelledAll true (StringLiteral.marks ⟨quote, parts, s⟩) ts behind at hts
    rw [StringLiteral.marks, Mark.spelledAll_singleton, Mark.Spelled,
      Mark.spelledAll_singleton] at hts
    cases quote with
    | double =>
      obtain ⟨_, t, raw, segments, rfl, hl, hsplit, hparts⟩ := hts
      have ht : t ∈ (Lexer.ofString text offset).tokenizeFiltered.1 :=
        (List.mem_filter.1 (show t ∈ Excerpt.tokens text offset by simp [htokens])).1
      refine ⟨fun c hc => ?_, fun c hc => ?_, hparts.ordered (Quoted.split_laid hsplit).ordered _ _⟩
      · obtain ⟨inner, start, hmem, hwritten⟩ := hparts.written _ _ hc
        exact ⟨inner, start, .code he ht hl hsplit hmem, [], _, [], by simp, hwritten⟩
      · obtain ⟨inner, start, hmem, hwritten⟩ := hparts.written _ _ hc
        obtain ⟨_, _, _, hspan⟩ := (Lexer.tokenizeFiltered_at ht).string hl
        obtain ⟨_, _, hraw, rfl⟩ := Quoted.within_of_split hsplit hmem
        have hinside := hwritten.inside
        have hwithin := horder.within hcovers t (List.mem_singleton_self t)
        rw [hraw] at hspan
        rw [Span.Within, hspan] at hwithin
        rw [hspan] at hinside
        simp only [Text.byteSize_append] at hwithin hinside
        exact ⟨by omega, by omega⟩
    | single =>
      obtain ⟨_, _, _, _, _, _, _, hparts⟩ := hts
      rw [Part.ofText_children hparts]
      exact ⟨by simp, .nil _⟩
  · obtain ⟨body, hmarks, hbody⟩ := n.lists_children fun s hs => hstring ⟨s, hs⟩
    have hruns : Runs n.children ts behind := by
      cases n with
      | name n => exact .nil
      | string s => exact absurd ⟨s, rfl⟩ hstring
      | _ =>
        change Mark.SpelledAll true (Node.marks _) ts behind at hts
        rw [hmarks, Mark.spelledAll_singleton, Mark.Spelled] at hts
        exact hbody.runs hts.2
    refine ⟨fun c hc => ?_, hruns.encloses horder (horder.within hts.covers)⟩
    obtain ⟨front', us, behind', rfl, hus⟩ := hruns.written hc
    exact ⟨text, offset, he, front ++ front', us, behind' ++ behind, by simp [htokens], hus⟩

end Children

inductive Program.Below (p : Program) : Node → Prop
  | item {i : Item} (h : i ∈ p.items) : Below p (.item i)
  | child {n c : Node} (hn : Below p n) (hc : c ∈ n.children) : Below p c

theorem parse_items (source : String) (limit : Nat) :
    (∀ i ∈ (parse source limit).1.items, (Node.item i).InExcerpt source) ∧
      (parse source limit).1.span.Encloses ((parse source limit).1.items.map .item) := by
  obtain ⟨finish, hread, _⟩ := reads_parse source limit
  have hspan : (parse source limit).1.span = (State.ofString source 0).area := by
    rcases reads_script.1 hread with ⟨_, hp, _⟩ | ⟨_, _, hp⟩ <;> rw [hp]
  rcases Wrote.script (writes_enter limit limit) hread with ⟨_, hitems, _⟩ | ⟨_,
    ⟨ts, hm, hms⟩, hend⟩
  · rw [hitems]
    exact ⟨by simp, .nil _⟩
  · have hspelled := hms (State.sound_ofString source 0) true (.inl rfl)
    rw [hend, Program.marks, Item.marksAll_eq_flatMap] at hspelled
    have hlists := Mark.Lists.skip (.seam false) (Mark.Lists.flatMap (fun _ => [])
      (fun i => [.seam i.open_]) (fun i => .ofNode (.item i)) (parse source limit).1.items)
    have hruns := hlists.runs hspelled
    have htokens : Excerpt.tokens source 0 = ts := by
      rw [Excerpt.tokens, hm.after, hend, List.append_nil]
    have horder : Token.InOrder ts := htokens ▸ Excerpt.inOrder source 0
    constructor
    · intro i hi
      obtain ⟨front, us, behind, rfl, hus⟩ := hruns.written (List.mem_map_of_mem hi)
      exact ⟨source, 0, .whole, front, us, behind, htokens, List.append_nil behind ▸ hus⟩
    · rw [hspan]
      refine hruns.encloses horder fun t ht => ?_
      exact (State.sound_ofString source 0).inside t (by rwa [← htokens] at ht)

/-- Each node below the root of a program that a parse answers with has a nonempty piece of the
source for its span, from the start of its first token to the end of its last one. The spans of the
nodes in a node lie in its span, in order and apart. -/
theorem parse_spans (source : String) (limit : Nat) :
    (parse source limit).1.span.Encloses ((parse source limit).1.items.map .item) ∧
      ∀ n, (parse source limit).1.Below n → n.Placed source ∧ n.span.Encloses n.children := by
  obtain ⟨hitems, hroot⟩ := parse_items source limit
  refine ⟨hroot, fun n hn => ?_⟩
  have hexcerpt : n.InExcerpt source := by
    induction hn with
    | item hi => exact hitems _ hi
    | child _ hc ih => exact ih.children.1 _ hc
  exact ⟨hexcerpt.placed, hexcerpt.children.2⟩

/-- The first statement of a script with code in a string, of which the next statement fails. -/
theorem parse_spans_around_failure : ∃ i is,
    (parse "let a = \"\x24\x7b-b\x7dé\"\nlet = 1\nuse b" 8).1.items = i :: is ∧
      (Node.item i).Placed "let a = \"\x24\x7b-b\x7dé\"\nlet = 1\nuse b" ∧
      (Node.item i).span.Encloses (Node.item i).children := by
  have hlength : 0 < (parse "let a = \"\x24\x7b-b\x7dé\"\nlet = 1\nuse b" 8).1.items.length := by
    decide +kernel
  obtain ⟨i, is, hitems⟩ := List.exists_cons_of_length_pos hlength
  exact ⟨i, is, hitems,
    (parse_spans _ 8).2 (.item i) (.item (by rw [hitems]; exact List.mem_cons_self ..))⟩

end ApiScript
