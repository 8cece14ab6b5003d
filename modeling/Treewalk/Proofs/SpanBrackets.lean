/-
  Treewalk.Proofs.SpanBrackets — the brackets inside the span of a node.

  An expression in parentheses is that expression, with its own span: the parentheses belong to no node.
  What begins with such an operand begins inside the parentheses, so that its span has the closing one
  without the opening one; what ends with one ends inside them. `Fits d opened inner closed`: the node
  spans the tokens `inner`, and brackets are level once the parentheses `opened` in front and `closed`
  behind are counted in; without them only if there are none.

  Proved: every node of a tree fits into the tokens it was read from (`Covers.framed`). Where all brackets
  of a text match, and spans can hold its offsets, those inside a span match together with parentheses directly around it, and only
  nodes that begin or end with an operand need any (`spans_matched`); a sum with an operand in parentheses
  does (`spans_matched_sum`).
-/

import Treewalk.Proofs.Bracketing

namespace Treewalk

open Grammar

/-- The tokens that lie inside a span. -/
def Span.inside (s : Span) (ts : List Token) : List Token :=
  ts.filter fun t => decide (s.start ≤ t.span.start) && decide (t.span.stop ≤ s.stop)

namespace Node

/-- Whether a node begins with an operand, which may be in parentheses. -/
def beginsWithOperand : Node → Bool
  | .expression _ _ | .binary _ _ _ _ | .member _ _ _ _ | .call _ _ _ => true
  | .unsupported _ kind => decide (kind ∈ joinedKinds)
  | _ => false

/-- Whether a node ends with an operand, which may be in parentheses. -/
def endsWithOperand : Node → Bool
  | .binary _ _ _ _ => true
  | .unsupported _ kind => decide (kind = "UnaryExpression") || decide (kind ∈ joinedKinds)
  | _ => false

end Node

/-! ## From the first token to the last -/

/-- The span begins with the first of the tokens and ends with the last. -/
def Spanning (ts : List Token) (s : Span) : Prop :=
  ∃ first, ts.head? = some first ∧ s.start = first.span.start ∧ s.stop = (endOf ts).stop

section
variable {lo hi : Nat} {ts us vs between : List Token} {a b s : Span}

theorem Tiled.lt {t : Token} (h : Tiled lo ts hi) (ht : t ∈ ts) : t.span.start < t.span.stop := by
  induction h with
  | nil => cases ht
  | cons _ hlt _ ih =>
    rcases List.mem_cons.mp ht with rfl | ht
    · exact hlt
    · exact ih ht

theorem Spanning.ne_nil (h : Spanning ts s) : ts ≠ [] := by
  rintro rfl
  obtain ⟨_, hfirst, -⟩ := h
  cases hfirst

theorem spanning_token (t : Token) : Spanning [t] t.span := ⟨t, rfl, rfl, rfl⟩

theorem spanning_spanOf (h : Tiled lo ts hi) (hts : ts ≠ []) : Spanning ts (spanOf ts) := by
  obtain ⟨t, us, rfl⟩ := List.exists_cons_of_ne_nil hts
  obtain ⟨hstart, hstop⟩ := h.le_endOf (t := t) List.mem_cons_self
  exact ⟨t, rfl, Nat.min_eq_left hstart, Nat.max_eq_right hstop⟩

/-- On from the end of one span to the end of the tokens. -/
theorem Spanning.merge_endOf (h : Tiled lo (ts ++ us) hi) (ha : Spanning ts a) :
    Spanning (ts ++ us) (a.merge (endOf (ts ++ us))) := by
  obtain ⟨first, hfirst, hstart, hstop⟩ := ha
  have hmem : first ∈ ts := List.mem_of_head? hfirst
  obtain ⟨last, hlast, hend⟩ := endOf_mem (List.ne_nil_of_mem hmem)
  have hbegins := (h.le_endOf (List.mem_append_left us hmem)).1
  have hstops := (h.le_endOf (List.mem_append_left us hlast)).2
  rw [← hend, ← hstop] at hstops
  refine ⟨first, by rw [List.head?_append, hfirst]; rfl, ?_, Nat.max_eq_right hstops⟩
  rw [Span.merge_start, hstart, Nat.min_eq_left hbegins]

/-- From the start of one span to the end of another behind it. -/
theorem Spanning.merge (h : Tiled lo (ts ++ (between ++ us)) hi) (ha : Spanning ts a) (hb : Spanning us b) :
    Spanning (ts ++ (between ++ us)) (a.merge b) := by
  obtain ⟨mid, hts, hrest⟩ := tiled_append.mp h
  obtain ⟨mid', hbetween, hus⟩ := tiled_append.mp hrest
  have hend : endOf (ts ++ (between ++ us)) = endOf us := by
    rw [endOf_append (by simp [hb.ne_nil]), endOf_append hb.ne_nil]
  obtain ⟨last, hlast, hlastEnd⟩ := endOf_mem ha.ne_nil
  obtain ⟨first, hfirst, hstart, hstop⟩ := ha
  obtain ⟨u, hu, hstart', hstop'⟩ := hb
  have hmem := List.mem_of_head? hfirst
  have hmem' := List.mem_of_head? hu
  have hfirstStop := (hts.within hmem).2
  have hlastStop := (hts.within hlast).2
  have hbehind := (hus.within hmem').1
  have huStop := (hus.le_endOf hmem').2
  have hlt := hts.lt hmem
  have hlt' := hus.lt hmem'
  have hle := hbetween.le
  rw [hlastEnd] at hstop
  refine ⟨first, by rw [List.head?_append, hfirst]; rfl, ?_, ?_⟩
  · rw [Span.merge_start, Nat.min_eq_left (by omega), hstart]
  · rw [Span.merge_stop, Nat.max_eq_right (by omega), hstop', hend]

/-- Of tokens that stand one behind the other, a span has those inside that it spans. -/
theorem Spanning.inside {pre post : List Token} (h : Tiled lo (pre ++ (ts ++ post)) hi) (hs : Spanning ts s) :
    s.inside (pre ++ (ts ++ post)) = ts := by
  obtain ⟨first, hfirst, hstart, hstop⟩ := hs
  obtain ⟨m, hpre, hrest⟩ := tiled_append.mp h
  obtain ⟨m', hts, hpost⟩ := tiled_append.mp hrest
  have hne : ts ≠ [] := List.ne_nil_of_mem (List.mem_of_head? hfirst)
  have hcons : ts = first :: ts.tail := List.eq_cons_of_mem_head? hfirst
  obtain ⟨hm, -, htail⟩ := tiled_cons.mp (hcons ▸ hts)
  obtain ⟨last, hlast, hend⟩ := endOf_mem hne
  have hm' : (endOf ts).stop ≤ m' := hend ▸ (hts.within hlast).2
  have hpre' : ∀ t ∈ pre, t.span.start < s.start := by
    intro t ht
    have := (hpre.within ht).2
    have := hpre.lt ht
    omega
  have hpost' : ∀ t ∈ post, s.stop < t.span.stop := by
    intro t ht
    have := (hpost.within ht).1
    have := hpost.lt ht
    omega
  have hts' : ∀ t ∈ ts, s.start ≤ t.span.start ∧ t.span.stop ≤ s.stop := by
    intro t ht
    refine ⟨?_, hstop ▸ (hts.le_endOf ht).2⟩
    rw [hcons] at ht
    rcases List.mem_cons.mp ht with rfl | ht
    · exact Nat.le_of_eq hstart
    · have := (htail.within ht).1
      have := hts.lt (List.mem_of_head? hfirst)
      omega
  simp only [Span.inside, List.filter_append]
  rw [List.filter_eq_nil_iff.mpr, List.filter_eq_self.mpr, List.filter_eq_nil_iff.mpr, List.nil_append, List.append_nil]
  · intro t ht
    have := hpost' t ht
    simp; omega
  · intro t ht
    simpa using hts' t ht
  · intro t ht
    have := hpre' t ht
    simp; omega

end


namespace Grammar

/-! ## Parentheses around operands -/

/-- Tokens of one punctuation. -/
def AllOf (p : Punct) (ts : List Token) : Prop := ∀ t ∈ ts, t.kind = .punct p

section
variable {n : Nat} {ts us opened inner closed : List Token}

theorem nests_openers (h : AllOf .lparen opened) : Nests n (opened ++ ts) ↔ Nests (n + opened.length) ts := by
  induction opened generalizing n with
  | nil => rfl
  | cons t opened ih =>
    obtain ⟨ht, hrest⟩ := List.forall_mem_cons.mp h
    obtain ⟨k, s⟩ := t
    obtain rfl : k = .punct .lparen := ht
    rw [List.cons_append, nests_opener rfl, ih hrest, List.length_cons, Nat.add_assoc, Nat.add_comm 1]

/-- Closing brackets alone are not level. -/
theorem AllOf.eq_nil (h : AllOf .rparen closed) (hn : Nests 0 closed) : closed = [] := by
  cases closed with
  | nil => rfl
  | cons t closed =>
    obtain ⟨k, s⟩ := t
    obtain rfl : k = .punct .rparen := h _ List.mem_cons_self
    obtain ⟨l, hl, -⟩ := (nests_closer rfl).mp hn
    cases hl

/-- The node spans the tokens `inner`; parentheses in front and behind level their brackets, and only
    nodes that begin or end with an operand need some. -/
structure Fits (d : Node) (opened inner closed : List Token) : Prop where
  span : Spanning inner d.span
  front : AllOf .lparen opened
  behind : AllOf .rparen closed
  nests : Nests 0 (opened ++ (inner ++ closed))
  needed : Nests 0 inner → opened = [] ∧ closed = []
  begins : opened ≠ [] → d.beginsWithOperand = true
  ends : closed ≠ [] → d.endsWithOperand = true

/-- The node fits in among the tokens. -/
def Framed (ts : List Token) (d : Node) : Prop :=
  ∃ pre opened inner closed post, ts = pre ++ (opened ++ (inner ++ (closed ++ post))) ∧ Fits d opened inner closed

/-- The expression fits into the tokens, with nothing but parentheses around it. -/
def Bordered (ts : List Token) (e : Node) : Prop :=
  ∃ pre opened inner closed post, ts = pre ++ (opened ++ (inner ++ (closed ++ post))) ∧ Fits e opened inner closed ∧
    AllOf .lparen pre ∧ AllOf .rparen post

end

section
variable {lo hi : Nat} {d e o : Node} {t : Token} {ts us between last opened inner closed closed' : List Token} {b : Span}

theorem AllOf.nil {p : Punct} : AllOf p [] := nofun

theorem AllOf.append {p : Punct} (h : AllOf p ts) (h' : AllOf p us) : AllOf p (ts ++ us) :=
  List.forall_mem_append.mpr ⟨h, h'⟩

theorem fits_whole (hs : Spanning ts d.span) (hn : Nests 0 ts) : Fits d [] ts [] :=
  ⟨hs, .nil, .nil, by simpa using hn, fun _ => ⟨rfl, rfl⟩, nofun, nofun⟩

/-- Without what levels them behind, brackets are level only if there was nothing. -/
theorem needed_behind (hb : AllOf .rparen closed) (hall : Nests 0 (inner ++ closed)) (h : Nests 0 inner) : closed = [] := by
  obtain ⟨l, hl, hclosed⟩ := h.split hall
  obtain rfl : l = 0 := by omega
  exact hb.eq_nil hclosed

/-- A node that begins with an operand, whose own parentheses are `opened` and `closed`. -/
theorem fits_operand (us : List Token) (hfront : AllOf .lparen opened) (ho : Nests 0 (opened ++ (inner ++ closed)))
    (hus : Nests 0 (us ++ closed')) (hs : Spanning (inner ++ (closed ++ us)) d.span) (hbehind : AllOf .rparen closed')
    (hbegins : d.beginsWithOperand = true) (hends : closed' ≠ [] → d.endsWithOperand = true) :
    Fits d opened (inner ++ (closed ++ us)) closed' where
  span := hs
  front := hfront
  behind := hbehind
  nests := by simpa using ho.append hus
  needed h := by
    -- The parentheses in front are closed within the operand, so that without them it closes too many.
    rw [nests_openers hfront] at ho
    have hinner : Nests 0 ((inner ++ closed) ++ us) := by simpa using h
    obtain ⟨l, hl, -⟩ := ho.split hinner
    obtain rfl : opened = [] := List.eq_nil_of_length_eq_zero (by omega)
    refine ⟨rfl, needed_behind hbehind ?_ h⟩
    simpa using ho.append hus
  begins _ := hbegins
  ends := hends

/-- A node that ends with an operand, behind a token. -/
theorem fits_signed (ht : isLevel t.kind = true) (hbehind : AllOf .rparen closed)
    (ho : Nests 0 (opened ++ (inner ++ closed))) (hs : Spanning (t :: (opened ++ inner)) d.span)
    (hends : d.endsWithOperand = true) : Fits d [] (t :: (opened ++ inner)) closed where
  span := hs
  front := .nil
  behind := hbehind
  nests := by simpa using (nests_token ht).append ho
  needed h := ⟨rfl, needed_behind hbehind (by simpa using (nests_token ht).append ho) h⟩
  begins := nofun
  ends _ := hends

/-- The parentheses around an operand, and what it spans. -/
theorem Bordered.operand (h : Bordered ts e) : ∃ opened inner closed, ts = opened ++ (inner ++ closed) ∧
    Spanning inner e.span ∧ AllOf .lparen opened ∧ AllOf .rparen closed := by
  obtain ⟨pre, opened, inner, closed, post, rfl, hfits, hpre, hpost⟩ := h
  exact ⟨pre ++ opened, inner, closed ++ post, by simp, hfits.span, hpre.append hfits.front, hfits.behind.append hpost⟩

theorem Bordered.framed (h : Bordered ts e) : Framed ts e := by
  obtain ⟨pre, opened, inner, closed, post, hts, hfits, -⟩ := h
  exact ⟨pre, opened, inner, closed, post, hts, hfits⟩

theorem Fits.bordered (h : Fits e opened inner closed) : Bordered (opened ++ (inner ++ closed)) e :=
  ⟨[], opened, inner, closed, [], by simp, h, .nil, .nil⟩

theorem bordered_whole (hs : Spanning ts e.span) (hn : Nests 0 ts) : Bordered ts e := by
  simpa using (fits_whole hs hn).bordered

/-- An expression that begins with an operand and ends where something behind it does. -/
theorem bordered_operand (between last closed' : List Token) (htiled : Tiled lo (ts ++ (between ++ (last ++ closed'))) hi)
    (ho : Bordered ts o) (hts : Nests 0 ts) (hlast : Spanning last b) (hs : e.span = o.span.merge b) (hus : Nests 0 (between ++ (last ++ closed')))
    (hbehind : AllOf .rparen closed') (hbegins : e.beginsWithOperand = true)
    (hends : closed' ≠ [] → e.endsWithOperand = true) : Bordered (ts ++ (between ++ (last ++ closed'))) e := by
  obtain ⟨opened, inner, closed, rfl, hinner, hfront, -⟩ := ho.operand
  have htight : Tiled lo (opened ++ (inner ++ ((closed ++ between) ++ last) ++ closed')) hi := by simpa using htiled
  obtain ⟨mid, -, hrest⟩ := tiled_append.mp htight
  obtain ⟨mid', hspanned, -⟩ := tiled_append.mp hrest
  have hspan := hinner.merge hspanned hlast
  rw [← hs] at hspan
  have hfits : Fits e opened (inner ++ (closed ++ (between ++ last))) closed' :=
    fits_operand (between ++ last) hfront hts (by simpa using hus) (by simpa using hspan) hbehind hbegins hends
  simpa using hfits.bordered

theorem Covers.bordered (h : Covers (.expression e) ts) (htiled : Tiled lo ts hi) : Bordered ts e := by
  generalize hp : Phrase.expression e = phrase at h
  induction h generalizing e lo hi with
  | number | string | ident | bool | null | this =>
    cases hp
    exact bordered_whole (spanning_token _) (nests_token rfl)
  | @parenthesized e us s s' _ ih =>
    cases hp
    obtain ⟨hlo, hlt, hrest⟩ := tiled_cons.mp htiled
    obtain ⟨mid, hus, -⟩ := tiled_append.mp hrest
    obtain ⟨pre, opened, inner, closed, post, rfl, hfits, hpre, hpost⟩ := ih hus rfl
    refine ⟨⟨.punct .lparen, s⟩ :: pre, opened, inner, closed, post ++ [⟨.punct .rparen, s'⟩], by simp, hfits, ?_, ?_⟩
    · exact List.forall_mem_cons.mpr ⟨rfl, hpre⟩
    · exact hpost.append (by simp [AllOf])
  | @array es us s s' hes _ =>
    cases hp
    refine bordered_whole ?_ (hes.nests.bracketed rfl rfl)
    simpa [spanOf, Node.span] using spanning_spanOf htiled (List.cons_ne_nil _ _)
  | @dotted o us k name s s' ho hk ih =>
    cases hp
    obtain ⟨mid, hus, -⟩ := tiled_append.mp htiled
    exact bordered_operand [⟨.punct .dot, s⟩] [⟨k, s'⟩] [] htiled (ih hus rfl) ho.nests
      (spanning_token _) rfl ((nests_token rfl).append hk.nests) .nil rfl fun hne => absurd rfl hne
  | @computed o p us vs s s' ho hp' ih _ =>
    cases hp
    obtain ⟨mid, hus, -⟩ := tiled_append.mp htiled
    simpa using bordered_operand (⟨.punct .lbracket, s⟩ :: vs) [⟨.punct .rbracket, s'⟩] []
      (by simpa using htiled) (ih hus rfl) ho.nests (spanning_token _) rfl (by simpa using hp'.nests.bracketed rfl rfl) .nil
      rfl fun hne => absurd rfl hne
  | @call f as us vs s s' hf has ih _ =>
    cases hp
    obtain ⟨mid, hus, -⟩ := tiled_append.mp htiled
    simpa using bordered_operand (⟨.punct .lparen, s⟩ :: vs) [⟨.punct .rparen, s'⟩] []
      (by simpa using htiled) (ih hus rfl) hf.nests (spanning_token _) rfl (by simpa using has.nests.bracketed rfl rfl) .nil
      rfl fun hne => absurd rfl hne
  | @binary op l r us vs s hl hr ihl ihr =>
    cases hp
    obtain ⟨mid, hus, hrest⟩ := tiled_append.mp htiled
    obtain ⟨-, -, hvs⟩ := tiled_cons.mp hrest
    obtain ⟨opened, inner, closed, rfl, hinner, hfront, hbehind⟩ := (ihr hvs rfl).operand
    simpa using bordered_operand (⟨.punct op.punct, s⟩ :: opened) inner closed
      (by simpa using htiled) (ihl hus rfl) hl.nests hinner rfl
      (by simpa using (nests_token (isLevel_op op)).append hr.nests) hbehind rfl fun _ => rfl
  | @signed e t us hsign he ih =>
    cases hp
    obtain ⟨-, -, hus⟩ := tiled_cons.mp htiled
    obtain ⟨opened, inner, closed, rfl, hinner, hfront, hbehind⟩ := (ih hus rfl).operand
    have htight : Tiled lo ([t] ++ (opened ++ inner) ++ closed) hi := by simpa using htiled
    obtain ⟨mid, hspanned, -⟩ := tiled_append.mp htight
    have hspan := (spanning_token t).merge hspanned hinner
    have hfits : Fits (.unsupported (t.span.merge e.span) "UnaryExpression") [] (t :: (opened ++ inner)) closed :=
      fits_signed (isLevel_sign hsign) hbehind he.nests hspan (by simp [Node.endsWithOperand])
    simpa using hfits.bordered
  | @joined l r us mid vs kind hkind hl hmid hr ihl ihr =>
    cases hp
    obtain ⟨m, hus, hrest⟩ := tiled_append.mp htiled
    obtain ⟨m', -, hvs⟩ := tiled_append.mp hrest
    obtain ⟨opened, inner, closed, rfl, hinner, hfront, hbehind⟩ := (ihr hvs rfl).operand
    simpa using bordered_operand (mid ++ opened) inner closed
      (by simpa using htiled) (ihl hus rfl) hl.nests hinner rfl (by simpa using hmid.append hr.nests) hbehind
      (by simpa [Node.beginsWithOperand] using hkind) fun _ => by simp [Node.endsWithOperand, hkind]
  | @recognised t us kind hn =>
    cases hp
    exact bordered_whole (spanning_spanOf htiled (List.cons_ne_nil _ _)) hn
  | _ => cases hp

end

/-! ## All nodes of a tree -/

/-- The nodes and all below them fit in among the tokens. -/
def FramedAll (ts : List Token) (es : List Node) : Prop := ∀ e ∈ es, ∀ d ∈ e.nodes, Framed ts d

section
variable {lo hi : Nat} {e : Node} {es fs : List Node} {ts us : List Token}

theorem framedAll_nil : FramedAll ts [] := nofun

theorem FramedAll.among (pre post : List Token) (h : FramedAll ts es) : FramedAll (pre ++ (ts ++ post)) es := by
  intro e he d hd
  obtain ⟨pre', opened, inner, closed, post', rfl, hfits⟩ := h e he d hd
  exact ⟨pre ++ pre', opened, inner, closed, post' ++ post, by simp, hfits⟩

theorem FramedAll.append (h : FramedAll ts es) (h' : FramedAll ts fs) : FramedAll ts (es ++ fs) := by
  intro e he
  exact (List.mem_append.mp he).elim (h e) (h' e)

theorem framedAll_node (h : Framed ts e) (hc : FramedAll ts e.children) : FramedAll ts [e] := by
  intro d hd
  obtain rfl := List.mem_singleton.mp hd
  intro c hc'
  rw [Node.nodes_eq] at hc'
  rcases List.mem_cons.mp hc' with rfl | hc'
  · exact h
  · obtain ⟨b, hb, hcb⟩ := List.mem_flatMap.mp hc'
    exact hc b hb c hcb

theorem framedAll_expression (h : Covers (.expression e) ts) (htiled : Tiled lo ts hi) (hc : FramedAll ts e.children) :
    FramedAll ts [e] :=
  framedAll_node (h.bordered htiled).framed hc

/-- A node that spans all its tokens. -/
theorem framedAll_whole (hs : Spanning ts e.span) (hn : Nests 0 ts) (hc : FramedAll ts e.children) : FramedAll ts [e] :=
  framedAll_node ⟨[], [], ts, [], [], by simp, fits_whole hs hn⟩ hc

/-- Nodes on both sides of tokens. -/
theorem FramedAll.separated (between : List Token) (h : FramedAll ts es) (h' : FramedAll us fs) :
    FramedAll (ts ++ (between ++ us)) (es ++ fs) := by
  refine FramedAll.append ?_ ?_
  · simpa using h.among [] (between ++ us)
  · simpa using h'.among (ts ++ between) []

theorem framedAll_token {t : Token} (ht : isLevel t.kind = true) (hs : e.span = t.span) (hc : e.children = []) :
    FramedAll [t] [e] :=
  framedAll_whole (hs ▸ spanning_token t) (nests_token ht) (hc ▸ framedAll_nil)

/-- All nodes that a phrase is made of fit in among its tokens. -/
theorem Covers.framed {phrase : Phrase} (h : Covers phrase ts) (htiled : Tiled lo ts hi) : FramedAll ts phrase.nodes := by
  have hcovers := h
  induction h generalizing lo hi with
  | number | string | ident | bool | null | this => exact framedAll_token rfl rfl rfl
  | @parenthesized e us s s' he ih =>
    obtain ⟨-, -, hrest⟩ := tiled_cons.mp htiled
    obtain ⟨mid, hus, -⟩ := tiled_append.mp hrest
    exact (ih hus he).among [⟨.punct .lparen, s⟩] [⟨.punct .rparen, s'⟩]
  | @array es us s s' hes ih =>
    obtain ⟨-, -, hrest⟩ := tiled_cons.mp htiled
    obtain ⟨mid, hus, -⟩ := tiled_append.mp hrest
    exact framedAll_expression hcovers htiled ((ih hus hes).among [⟨.punct .lbracket, s⟩] [⟨.punct .rbracket, s'⟩])
  | @dotted o us k name s s' ho hk ih =>
    obtain ⟨mid, hus, -⟩ := tiled_append.mp htiled
    have hname : FramedAll [⟨k, s'⟩] [.ident s' name] :=
      framedAll_whole (spanning_token _) hk.nests framedAll_nil
    exact framedAll_expression hcovers htiled ((ih hus ho).separated [⟨.punct .dot, s⟩] hname)
  | @computed o p us vs s s' ho hp iho ihp =>
    obtain ⟨mid, hus, hrest⟩ := tiled_append.mp htiled
    obtain ⟨-, -, hrest⟩ := tiled_cons.mp hrest
    obtain ⟨mid', hvs, -⟩ := tiled_append.mp hrest
    have hproperty := (ihp hvs hp).among [] [⟨.punct .rbracket, s'⟩]
    exact framedAll_expression hcovers htiled ((iho hus ho).separated [⟨.punct .lbracket, s⟩] hproperty)
  | @call f as us vs s s' hf has ihf iha =>
    obtain ⟨mid, hus, hrest⟩ := tiled_append.mp htiled
    obtain ⟨-, -, hrest⟩ := tiled_cons.mp hrest
    obtain ⟨mid', hvs, -⟩ := tiled_append.mp hrest
    have harguments := (iha hvs has).among [] [⟨.punct .rparen, s'⟩]
    exact framedAll_expression hcovers htiled ((ihf hus hf).separated [⟨.punct .lparen, s⟩] harguments)
  | @binary op l r us vs s hl hr ihl ihr =>
    obtain ⟨mid, hus, hrest⟩ := tiled_append.mp htiled
    obtain ⟨-, -, hvs⟩ := tiled_cons.mp hrest
    exact framedAll_expression hcovers htiled ((ihl hus hl).separated [⟨.punct op.punct, s⟩] (ihr hvs hr))
  | signed | joined | recognised => exact framedAll_expression hcovers htiled framedAll_nil
  | noItems | noParams | lastParam | param | noStatements => exact framedAll_nil
  | lastItem he ih | lastDeclarator he ih => exact ih htiled he
  | @item e es us vs s he hes ihe ihes =>
    obtain ⟨mid, hus, hrest⟩ := tiled_append.mp htiled
    obtain ⟨-, -, hvs⟩ := tiled_cons.mp hrest
    exact (ihe hus he).separated [⟨.punct .comma, s⟩] (ihes hvs hes)
  | @moreDeclarators d ds us vs s hd hds ihd ihds =>
    obtain ⟨mid, hus, hrest⟩ := tiled_append.mp htiled
    obtain ⟨-, -, hvs⟩ := tiled_cons.mp hrest
    exact (ihd hus hd).separated [⟨.punct .comma, s⟩] (ihds hvs hds)
  | @plain name s =>
    refine framedAll_whole (spanning_spanOf htiled (List.cons_ne_nil _ _)) (nests_token rfl) ?_
    exact framedAll_token rfl rfl rfl
  | @initialized name e us s q he ih =>
    obtain ⟨-, -, hrest⟩ := tiled_cons.mp htiled
    obtain ⟨-, -, hus⟩ := tiled_cons.mp hrest
    refine framedAll_whole (spanning_spanOf htiled (List.cons_ne_nil _ _)) hcovers.nests ?_
    have hid : FramedAll [⟨.ident name, s⟩] [.ident s name] := framedAll_token rfl rfl rfl
    exact hid.separated [⟨.punct .eq, q⟩] (ih hus he)
  | @declaration word ds us semi s hds hsemi ih =>
    obtain ⟨-, -, hrest⟩ := tiled_cons.mp htiled
    obtain ⟨mid, hus, -⟩ := tiled_append.mp hrest
    refine framedAll_whole (spanning_spanOf htiled (List.cons_ne_nil _ _)) hcovers.nests ?_
    exact (ih hus hds).among [⟨.keyword word.keyword, s⟩] semi
  | @function name ps body us vs s s' opened closed hps hbody _ ihbody =>
    obtain ⟨-, -, hrest⟩ := tiled_cons.mp htiled
    obtain ⟨-, -, hrest⟩ := tiled_cons.mp hrest
    obtain ⟨-, -, hrest⟩ := tiled_cons.mp hrest
    obtain ⟨mid, -, hrest⟩ := tiled_append.mp hrest
    obtain ⟨-, -, hvs⟩ := tiled_cons.mp hrest
    refine framedAll_whole (spanning_spanOf htiled (List.cons_ne_nil _ _)) hcovers.nests ?_
    have hid : FramedAll [⟨.ident name, s'⟩] [.ident s' name] := framedAll_token rfl rfl rfl
    have hbelow := hid.separated (⟨.punct .lparen, opened⟩ :: (us ++ [⟨.punct .rparen, closed⟩])) (ihbody hvs hbody)
    simpa [Node.children, Phrase.nodes] using hbelow.among [⟨.keyword .functionKw, s⟩] []
  | returning hsemi =>
    exact framedAll_whole (spanning_spanOf htiled (List.cons_ne_nil _ _)) hcovers.nests framedAll_nil
  | @returningValue e us semi s he hsemi ih =>
    obtain ⟨-, -, hrest⟩ := tiled_cons.mp htiled
    obtain ⟨mid, hus, -⟩ := tiled_append.mp hrest
    refine framedAll_whole (spanning_spanOf htiled (List.cons_ne_nil _ _)) hcovers.nests ?_
    exact (ih hus he).among [⟨.keyword .returnKw, s⟩] semi
  | @block ss us s s' hss ih =>
    obtain ⟨-, -, hrest⟩ := tiled_cons.mp htiled
    obtain ⟨mid, hus, -⟩ := tiled_append.mp hrest
    refine framedAll_whole ?_ hcovers.nests ((ih hus hss).among [⟨.punct .lbrace, s⟩] [⟨.punct .rbrace, s'⟩])
    simpa [spanOf, Node.span] using spanning_spanOf htiled (List.cons_ne_nil _ _)
  | @expressionStatement e us semi he hsemi ih =>
    obtain ⟨mid, hus, -⟩ := tiled_append.mp htiled
    obtain ⟨opened, inner, closed, rfl, hinner, hfront, -⟩ := (he.bordered hus).operand
    have htight : Tiled lo (opened ++ (inner ++ (closed ++ semi))) hi := by simpa using htiled
    obtain ⟨mid', -, hspanned⟩ := tiled_append.mp htight
    have hspan := hinner.merge_endOf hspanned
    have hend : endOf (opened ++ (inner ++ (closed ++ semi))) = endOf (inner ++ (closed ++ semi)) :=
      endOf_append (by simp [hinner.ne_nil])
    have hfits : Fits (.expression (e.span.merge (endOf (opened ++ (inner ++ closed) ++ semi))) e) opened
        (inner ++ (closed ++ semi)) [] := by
      refine fits_operand semi hfront he.nests (by simpa using hsemi.nests) ?_ .nil rfl fun hne => absurd rfl hne
      simpa [Node.span, hend] using hspan
    have hchild := (ih hus he).among [] semi
    exact framedAll_node ⟨[], opened, inner ++ (closed ++ semi), [], [], by simp, hfits⟩ hchild
  | empty => exact framedAll_token rfl rfl rfl
  | unsupportedStatement hn =>
    exact framedAll_whole (spanning_spanOf htiled (List.cons_ne_nil _ _)) hn framedAll_nil
  | @moreStatements s ss us vs hs hss ihs ihss =>
    obtain ⟨mid, hus, hvs⟩ := tiled_append.mp htiled
    exact (ihs hus hs).separated [] (ihss hvs hss)

end

end Grammar

/-! ## Texts whose brackets match -/

/-- The parentheses `opened` directly in front of the node's span and `closed` directly behind it complete the
    brackets inside; there are none exactly if these match by themselves. -/
structure Completed (ts : List Token) (d : Node) (opened closed : List Token) : Prop where
  place : ∃ pre post, ts = pre ++ (opened ++ (d.span.inside ts ++ (closed ++ post)))
  front : AllOf .lparen opened
  behind : AllOf .rparen closed
  matched : Matched (opened ++ (d.span.inside ts ++ closed))
  needed : Matched (d.span.inside ts) ↔ opened = [] ∧ closed = []
  begins : opened ≠ [] → d.beginsWithOperand = true
  ends : closed ≠ [] → d.endsWithOperand = true

section
variable {lo hi : Nat} {d : Node} {ts : List Token}

theorem Grammar.Framed.completed (h : Framed ts d) (htiled : Tiled lo ts hi) (hm : Matched ts) (hn : Nests 0 ts) :
    ∃ opened closed, Completed ts d opened closed := by
  obtain ⟨pre, opened, inner, closed, post, rfl, hfits⟩ := h
  have heof := hn.ne_eof
  have hinside : d.span.inside (pre ++ (opened ++ (inner ++ (closed ++ post)))) = inner := by
    have htight : Tiled lo ((pre ++ opened) ++ (inner ++ (closed ++ post))) hi := by simpa using htiled
    simpa using hfits.span.inside htight
  have hparted : Matched (pre ++ ((opened ++ (inner ++ closed)) ++ post)) := by simpa using hm
  have hall : Matched (opened ++ (inner ++ closed)) :=
    Matched.part pre hparted (fun t ht => heof t (by simp [ht])) hfits.nests
  refine ⟨opened, closed, ⟨pre, post, by rw [hinside]⟩, hfits.front, hfits.behind, by rwa [hinside], ?_, hfits.begins,
    hfits.ends⟩
  rw [hinside]
  constructor
  · intro hinner
    exact hfits.needed (nests_of_closes hinner fun t ht => heof t (by simp [ht]))
  · rintro ⟨rfl, rfl⟩
    simpa using hall

/-- A node whose span has all the tokens inside. -/
theorem completed_whole (hm : Matched ts) (htiled : Tiled d.span.start ts d.span.stop) : Completed ts d [] [] := by
  have hinside : d.span.inside ts = ts := by
    refine List.filter_eq_self.mpr fun t ht => ?_
    obtain ⟨hstart, hstop⟩ := htiled.within ht
    simp [hstart, hstop]
  exact ⟨⟨[], [], by simp [hinside]⟩, .nil, .nil, by simpa [hinside] using hm, by simpa [hinside] using hm, nofun, nofun⟩

end

/-- Where the brackets of a text match, so do those inside the span of a node, together with the parentheses
    of operands directly around it. In a text that is too long for that, an empty span at its start stands for
    a token further on, and so any span may seem to hold it. -/
theorem spans_matched {source : String} {tree : Node} {ts : List Token} (h : parse source = .ok tree)
    (hlex : lex source = .ok ts) (hfits : source.utf8ByteSize ≤ Span.maxOffset) (hm : Matched ts) :
    ∀ d ∈ tree.nodes, ∃ opened closed, Completed ts.dropLast d opened closed := by
  obtain ⟨body, last, ss, hlex', heof, hcovers, rfl⟩ := parse_covers h
  obtain rfl : ts = body ++ [last] := by
    rw [hlex] at hlex'
    exact Except.ok.inj hlex'
  obtain ⟨rfl, htiled⟩ := lex_tiled hlex heof hfits
  rw [List.dropLast_concat]
  have hbody : Matched body := by rwa [Matched, closes_concat rfl] at hm
  intro d hd
  rw [Node.nodes_eq] at hd
  rcases List.mem_cons.mp hd with rfl | hd
  · exact ⟨[], [], completed_whole hbody htiled.program.2.2⟩
  · obtain ⟨s, hs, hd⟩ := List.mem_flatMap.mp hd
    exact (hcovers.framed htiled s hs d hd).completed htiled hbody hcovers.nests

/-- Parentheses inside others, around the first operand of a call and the last of a sum. -/
theorem spans_matched_call : ∃ tree ts, parse "((a) + (b))((c), d);" = .ok tree ∧ lex "((a) + (b))((c), d);" = .ok ts ∧
    Matched ts ∧ ∀ d ∈ tree.nodes, ∃ opened closed, Completed ts.dropLast d opened closed := by
  have hread : (parse "((a) + (b))((c), d);").isOk = true := by decide +kernel
  have hbrackets : (match lex "((a) + (b))((c), d);" with
      | .ok ts => decide (Matched ts)
      | .error _ => false) = true := by decide +kernel
  obtain ⟨tree, h⟩ := exists_parse hread
  obtain ⟨ts, hlex, -⟩ := parse_ok h
  rw [hlex] at hbrackets
  have hm : Matched ts := of_decide_eq_true hbrackets
  exact ⟨tree, ts, h, hlex, hm, spans_matched h hlex (by decide) hm⟩

/-- The sum begins inside the parentheses of its first operand and has only the closing one inside. -/
theorem spans_matched_sum : ∃ tree ts, parse "(a) + b" = .ok tree ∧ lex "(a) + b" = .ok ts ∧ Matched ts ∧
    ∃ d ∈ tree.nodes, ¬ Matched (d.span.inside ts) := by
  have hfound : (match parse "(a) + b", lex "(a) + b" with
      | .ok tree, .ok ts => decide (Matched ts) && tree.nodes.any fun d => !decide (Matched (d.span.inside ts))
      | _, _ => false) = true := by decide +kernel
  cases h : parse "(a) + b" with
  | error e =>
    rw [h] at hfound
    cases hfound
  | ok tree =>
    cases hlex : lex "(a) + b" with
    | error e =>
      rw [h, hlex] at hfound
      cases hfound
    | ok ts =>
      rw [h, hlex] at hfound
      obtain ⟨hm, hany⟩ := Bool.and_eq_true_iff.mp hfound
      obtain ⟨d, hd, hnot⟩ := List.any_eq_true.mp hany
      exact ⟨tree, ts, rfl, rfl, of_decide_eq_true hm, d, hd, by simpa using hnot⟩

end Treewalk
