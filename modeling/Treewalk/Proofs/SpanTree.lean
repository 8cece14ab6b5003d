/-
  Treewalk.Proofs.SpanTree — the spans of a tree nest as its nodes do.

  The spans of nodes are merged from those of tokens, so what merging keeps holds of them if it does of
  the tokens (`Covers.spanned`). The tokens of a text whose offsets spans can hold stand one behind the
  other (`Tiled`), so a phrase that covers some of them is held by what they hold (`Stands`): the nodes
  it is made of stand between the same bounds, in order, and so on below each. A node's own span is then
  the bounds of its children.

  Proved: no span of a tree reaches beyond the text (`spans_inside`). If spans can hold the offsets of
  the text, every span runs from the start of a token to the end of one, and contains the spans of the
  children and of the parameters, the children being in order (`spans_nest`).
-/

import Treewalk.Proofs.Rejection
import Treewalk.Proofs.TokenOrder

namespace Treewalk

/-! ## Spans -/

namespace Span

@[simp] theorem merge_start (a b : Span) : (a.merge b).start = min a.start b.start := rfl

@[simp] theorem merge_stop (a b : Span) : (a.merge b).stop = max a.stop b.stop := rfl

/-- The span lies between two places. -/
def Within (lo hi : Nat) (s : Span) : Prop := lo ≤ s.start ∧ s.stop ≤ hi

theorem Within.merge {lo hi : Nat} {a b : Span} (ha : a.Within lo hi) (hb : b.Within lo hi) : (a.merge b).Within lo hi :=
  ⟨Nat.le_min.mpr ⟨ha.1, hb.1⟩, Nat.max_le.mpr ⟨ha.2, hb.2⟩⟩

/-- The span lies inside a text of so many bytes. -/
def Inside (size : Nat) (s : Span) : Prop := s.start ≤ s.stop ∧ s.stop ≤ size

theorem Inside.merge {size : Nat} {a b : Span} (ha : a.Inside size) (hb : b.Inside size) : (a.merge b).Inside size :=
  ⟨Nat.le_trans (Nat.min_le_left _ _) (Nat.le_trans ha.1 (Nat.le_max_left _ _)), Nat.max_le.mpr ⟨ha.2, hb.2⟩⟩

end Span

/-- The span runs from the start of a token to the end of a token. -/
def Anchored (ts : List Token) (s : Span) : Prop :=
  s.start ≤ s.stop ∧ ∃ first ∈ ts, ∃ last ∈ ts, s = ⟨first.span.start, last.span.stop⟩

theorem Anchored.mono {ts us : List Token} {s : Span} (h : Anchored ts s) (hts : ts ⊆ us) : Anchored us s := by
  obtain ⟨hle, first, hfirst, last, hlast, hs⟩ := h
  exact ⟨hle, first, hts hfirst, last, hts hlast, hs⟩

/-- From the start of one span to the end of another. -/
theorem Anchored.merge {ts : List Token} {a b : Span} (ha : Anchored ts a) (hb : Anchored ts b)
    (hstart : a.start ≤ b.start) (hstop : a.stop ≤ b.stop) : Anchored ts (a.merge b) := by
  have hmerge : a.merge b = ⟨a.start, b.stop⟩ := by rw [Span.merge, Nat.min_eq_left hstart, Nat.max_eq_right hstop]
  obtain ⟨hle, first, hfirst, _, -, ha⟩ := ha
  obtain ⟨-, _, -, last, hlast, hb⟩ := hb
  rw [hmerge]
  refine ⟨Nat.le_trans hle hstop, first, hfirst, last, hlast, ?_⟩
  rw [ha, hb]

/-! ## Tokens one behind the other -/

/-- Between `lo` and `hi` the tokens stand one behind the other, and none is empty. -/
inductive Tiled : Nat → List Token → Nat → Prop
  | nil {lo hi : Nat} : lo ≤ hi → Tiled lo [] hi
  | cons {lo hi : Nat} {t : Token} {ts : List Token} : lo ≤ t.span.start → t.span.start < t.span.stop →
      Tiled t.span.stop ts hi → Tiled lo (t :: ts) hi

section
variable {lo hi : Nat} {t : Token} {ts us : List Token}

theorem Tiled.le (h : Tiled lo ts hi) : lo ≤ hi := by
  induction h with
  | nil hle => exact hle
  | cons hlo hlt _ ih => omega

theorem tiled_cons : Tiled lo (t :: ts) hi ↔ lo ≤ t.span.start ∧ t.span.start < t.span.stop ∧ Tiled t.span.stop ts hi := by
  constructor
  · rintro (_ | ⟨hlo, hlt, hts⟩)
    exact ⟨hlo, hlt, hts⟩
  · rintro ⟨hlo, hlt, hts⟩
    exact .cons hlo hlt hts

theorem tiled_append : Tiled lo (ts ++ us) hi ↔ ∃ mid, Tiled lo ts mid ∧ Tiled mid us hi := by
  induction ts generalizing lo with
  | nil =>
    constructor
    · intro h
      exact ⟨lo, .nil (Nat.le_refl lo), h⟩
    · rintro ⟨mid, hle | _, h⟩
      cases h with
      | nil hle' => exact .nil (Nat.le_trans hle hle')
      | cons hlo hlt hts => exact .cons (Nat.le_trans hle hlo) hlt hts
  | cons t ts ih =>
    simp only [List.cons_append, tiled_cons, ih]
    constructor
    · rintro ⟨hlo, hlt, mid, hts, hus⟩
      exact ⟨mid, ⟨hlo, hlt, hts⟩, hus⟩
    · rintro ⟨mid, ⟨hlo, hlt, hts⟩, hus⟩
      exact ⟨hlo, hlt, mid, hts, hus⟩

theorem Tiled.token (h : Tiled lo [t] hi) : lo ≤ t.span.start ∧ t.span.start < t.span.stop ∧ t.span.stop ≤ hi := by
  obtain ⟨hlo, hlt, hts⟩ := tiled_cons.mp h
  exact ⟨hlo, hlt, hts.le⟩

theorem Tiled.anchored (h : Tiled lo ts hi) (ht : t ∈ ts) : Anchored ts t.span := by
  refine ⟨?_, t, ht, t, ht, rfl⟩
  induction h with
  | nil => cases ht
  | cons _ hlt _ ih =>
    rcases List.mem_cons.mp ht with rfl | ht
    · exact Nat.le_of_lt hlt
    · exact ih ht

theorem Tiled.within (h : Tiled lo ts hi) (ht : t ∈ ts) : t.span.Within lo hi := by
  induction h with
  | nil => cases ht
  | cons hlo hlt hts ih =>
    rcases List.mem_cons.mp ht with rfl | ht
    · exact ⟨hlo, hts.le⟩
    · obtain ⟨hstart, hstop⟩ := ih ht
      exact ⟨by omega, hstop⟩

theorem endOf_mem (hts : ts ≠ []) : ∃ t ∈ ts, endOf ts = t.span := by
  induction ts with
  | nil => exact absurd rfl hts
  | cons t ts ih =>
    by_cases hnil : ts = []
    · subst hnil
      exact ⟨t, by simp, rfl⟩
    · obtain ⟨u, hu, heq⟩ := ih hnil
      exact ⟨u, List.mem_cons_of_mem _ hu, by rw [endOf_cons hnil, heq]⟩

/-- No token begins or ends behind the last. -/
theorem Tiled.le_endOf (h : Tiled lo ts hi) (ht : t ∈ ts) : t.span.start ≤ (endOf ts).start ∧ t.span.stop ≤ (endOf ts).stop := by
  induction h with
  | nil => cases ht
  | @cons _ _ u us _ hlt hus ih =>
    by_cases hnil : us = []
    · subst hnil
      obtain rfl := List.mem_singleton.mp ht
      exact ⟨Nat.le_refl _, Nat.le_refl _⟩
    · rw [endOf_cons hnil]
      rcases List.mem_cons.mp ht with rfl | ht
      · obtain ⟨last, hlast, heq⟩ := endOf_mem hnil
        have hwithin := (hus.within hlast).1
        have hle := (hus.anchored hlast).1
        rw [heq]
        omega
      · exact ih ht

theorem Tiled.until (h : Tiled lo ts hi) (hts : ts ≠ []) : Tiled lo ts (endOf ts).stop := by
  induction h with
  | nil => exact absurd rfl hts
  | @cons _ _ u us hlo hlt hus ih =>
    by_cases hnil : us = []
    · subst hnil
      exact .cons hlo hlt (.nil (Nat.le_refl _))
    · rw [endOf_cons hnil]
      exact .cons hlo hlt (ih hnil)

theorem Tiled.anchored_spanOf (h : Tiled lo ts hi) (hts : ts ≠ []) : Anchored ts (spanOf ts) := by
  obtain ⟨last, hlast, hend⟩ := endOf_mem hts
  cases ts with
  | nil => exact absurd rfl hts
  | cons t us =>
    have hle := h.le_endOf (t := t) (by simp)
    rw [hend] at hle
    rw [spanOf, hend]
    exact (h.anchored (by simp)).merge (h.anchored hlast) hle.1 hle.2

/-- The tokens stand between the start of the first and the end of the last. -/
theorem Tiled.tight (h : Tiled lo ts hi) (hts : ts ≠ []) :
    (spanOf ts).Within lo hi ∧ Tiled (spanOf ts).start ts (spanOf ts).stop := by
  obtain ⟨last, hlast, hend⟩ := endOf_mem hts
  have huntil := h.until hts
  have hlasting := (h.within hlast).2
  cases ts with
  | nil => exact absurd rfl hts
  | cons t us =>
    obtain ⟨hstart, hstop⟩ := h.le_endOf (t := t) (by simp)
    have hspan : spanOf (t :: us) = ⟨t.span.start, (endOf (t :: us)).stop⟩ := by
      rw [spanOf, Span.merge, Nat.min_eq_left hstart, Nat.max_eq_right hstop]
    obtain ⟨hlo, hlt, hus⟩ := tiled_cons.mp huntil
    rw [hspan]
    exact ⟨⟨hlo, hend ▸ hlasting⟩, tiled_cons.mpr ⟨Nat.le_refl _, hlt, hus⟩⟩

end

/-! ## Nodes in place -/

/-- The parameters a node declares. -/
def Node.params : Node → List Param
  | .function _ _ ps _ => ps
  | _ => []

/-- The span of a node runs from token to token, around its children in order and its parameters. -/
structure Proper (ts : List Token) (d : Node) : Prop where
  anchored : Anchored ts d.span
  children : ∀ c ∈ d.children, c.span.Within d.span.start d.span.stop
  ordered : d.children.Pairwise fun a b => a.span.stop ≤ b.span.start
  params : ∀ p ∈ d.params, p.span.Within d.span.start d.span.stop

/-- The nodes stand between two places, one behind the other, and all is proper below them. -/
structure Stands (lo hi : Nat) (ts : List Token) (es : List Node) : Prop where
  within : ∀ e ∈ es, e.span.Within lo hi
  ordered : es.Pairwise fun a b => a.span.stop ≤ b.span.start
  proper : ∀ e ∈ es, ∀ d ∈ e.nodes, Proper ts d

theorem Node.mem_nodes_self (e : Node) : e ∈ e.nodes := by
  rw [nodes_eq]
  exact List.mem_cons_self

section
variable {lo hi lo' hi' mid : Nat} {ts us : List Token} {e f : Node} {es fs : List Node}

theorem Proper.mono (h : Proper ts e) (hts : ts ⊆ us) : Proper us e :=
  { h with anchored := h.anchored.mono hts }

theorem stands_nil : Stands lo hi ts [] := ⟨by simp, .nil, by simp⟩

theorem Stands.mono (h : Stands lo hi ts es) (hlo : lo' ≤ lo) (hhi : hi ≤ hi') (hts : ts ⊆ us) : Stands lo' hi' us es := by
  refine ⟨fun e he => ?_, h.ordered, fun e he d hd => (h.proper e he d hd).mono hts⟩
  obtain ⟨hstart, hstop⟩ := h.within e he
  exact ⟨Nat.le_trans hlo hstart, Nat.le_trans hstop hhi⟩

theorem Stands.among (h : Stands lo hi ts es) (hts : ts ⊆ us) : Stands lo hi us es :=
  h.mono (Nat.le_refl lo) (Nat.le_refl hi) hts

theorem Stands.append (h : Stands lo mid ts es) (h' : Stands mid hi ts fs) (hlo : lo ≤ mid) (hhi : mid ≤ hi) :
    Stands lo hi ts (es ++ fs) := by
  refine ⟨?_, ?_, ?_⟩
  · intro d hd
    rcases List.mem_append.mp hd with hd | hd
    · obtain ⟨hstart, hstop⟩ := h.within d hd
      exact ⟨hstart, Nat.le_trans hstop hhi⟩
    · obtain ⟨hstart, hstop⟩ := h'.within d hd
      exact ⟨Nat.le_trans hlo hstart, hstop⟩
  · refine List.pairwise_append.mpr ⟨h.ordered, h'.ordered, fun a ha b hb => ?_⟩
    exact Nat.le_trans (h.within a ha).2 (h'.within b hb).1
  · intro d hd
    exact (List.mem_append.mp hd).elim (h.proper d) (h'.proper d)

/-- A node fits where its span does, if its children fit into its span. -/
theorem stands_node (hc : Stands e.span.start e.span.stop ts e.children) (ha : Anchored ts e.span) (hw : e.span.Within lo hi)
    (hps : ∀ p ∈ e.params, p.span.Within e.span.start e.span.stop) : Stands lo hi ts [e] := by
  refine ⟨by simpa using hw, List.pairwise_singleton _ _, ?_⟩
  rintro d hd c hc'
  obtain rfl := List.mem_singleton.mp hd
  rw [Node.nodes_eq] at hc'
  rcases List.mem_cons.mp hc' with rfl | hc'
  · exact ⟨ha, hc.within, hc.ordered, hps⟩
  · obtain ⟨b, hb, hcb⟩ := List.mem_flatMap.mp hc'
    exact hc.proper b hb c hcb

theorem Stands.anchored (h : Stands lo hi ts [e]) : Anchored ts e.span :=
  (h.proper e (by simp) e e.mem_nodes_self).anchored

theorem Stands.bounds (h : Stands lo hi ts [e]) : lo ≤ e.span.start ∧ e.span.start ≤ e.span.stop ∧ e.span.stop ≤ hi :=
  ⟨(h.within e (by simp)).1, h.anchored.1, (h.within e (by simp)).2⟩

/-- A node fits into its own span. -/
theorem Stands.own (h : Stands lo hi ts [e]) : Stands e.span.start e.span.stop ts [e] :=
  ⟨by simp [Span.Within], h.ordered, h.proper⟩

/-- A node of all its tokens. -/
theorem stands_spanOf (h : Tiled lo ts hi) (hts : ts ≠ []) (hs : e.span = spanOf ts)
    (hc : Tiled e.span.start ts e.span.stop → Stands e.span.start e.span.stop ts e.children)
    (hps : Tiled e.span.start ts e.span.stop → ∀ p ∈ e.params, p.span.Within e.span.start e.span.stop) :
    Stands lo hi ts [e] := by
  obtain ⟨hw, htight⟩ := h.tight hts
  have ha := h.anchored_spanOf hts
  rw [← hs] at hw htight ha
  exact stands_node (hc htight) ha hw (hps htight)

/-- A node that begins with another one, and ends where something behind that one does. -/
theorem stands_behind {b : Span} (hs : e.span = f.span.merge b) (hf : Stands lo mid ts [f]) (hb : Anchored ts b)
    (hmid : mid ≤ b.start) (hhi : b.stop ≤ hi) (hc : e.children = f :: es) (hes : Stands mid b.stop ts es)
    (hps : e.params = []) : Stands lo hi ts [e] := by
  obtain ⟨hlo, hle, hstop⟩ := hf.bounds
  have hble := hb.1
  have ha : Anchored ts e.span := hs ▸ hf.anchored.merge hb (by omega) (by omega)
  have hspan : e.span = ⟨f.span.start, b.stop⟩ := by
    rw [hs, Span.merge, Nat.min_eq_left (by omega), Nat.max_eq_right (by omega)]
  refine stands_node ?_ ha ?_ (by simp [hps])
  · have hfirst : Stands f.span.start mid ts [f] := hf.own.mono (Nat.le_refl _) hstop (List.Subset.refl _)
    rw [hc, hspan]
    exact hfirst.append hes (by omega) (by simp only; omega)
  · rw [hspan]
    exact ⟨hlo, hhi⟩

/-- A node that begins with another one and ends with a bracket. -/
theorem stands_suffix {openToken closeToken : Token}
    (h : Tiled lo (ts ++ openToken :: (us ++ [closeToken])) hi) (hs : e.span = f.span.merge closeToken.span)
    (hf : ∀ {lo hi}, Tiled lo ts hi → Stands lo hi ts [f]) (hes : ∀ {lo hi}, Tiled lo us hi → Stands lo hi us es)
    (hc : e.children = f :: es) (hps : e.params = []) : Stands lo hi (ts ++ openToken :: (us ++ [closeToken])) [e] := by
  have hanchored := h.anchored (t := closeToken) (by simp)
  obtain ⟨mid, hts, hrest⟩ := tiled_append.mp h
  obtain ⟨hlo, hlt, hrest⟩ := tiled_cons.mp hrest
  obtain ⟨mid', hus, hclose⟩ := tiled_append.mp hrest
  obtain ⟨hstart, hlt', hstop⟩ := hclose.token
  have hle := hus.le
  refine stands_behind hs ((hf hts).among (by simp)) hanchored (by omega) hstop hc ?_ hps
  exact (hes hus).mono (by omega) (by omega) (by intro t ht; simp [ht])

/-- Nodes on both sides of a token. -/
theorem stands_separated {t : Token} (h : Tiled lo (ts ++ t :: us) hi) (hes : ∀ {lo hi}, Tiled lo ts hi → Stands lo hi ts es)
    (hfs : ∀ {lo hi}, Tiled lo us hi → Stands lo hi us fs) : Stands lo hi (ts ++ t :: us) (es ++ fs) := by
  obtain ⟨mid, hts, hrest⟩ := tiled_append.mp h
  obtain ⟨hlo, hlt, hus⟩ := tiled_cons.mp hrest
  have hbehind : Stands mid hi (ts ++ t :: us) fs := (hfs hus).mono (by omega) (Nat.le_refl hi) (by intro v hv; simp [hv])
  exact ((hes hts).among (by simp)).append hbehind hts.le hrest.le

/-- A node that only covers what stands between two places. -/
theorem stands_opaque (ha : Anchored ts e.span) (hw : e.span.Within lo hi) (hc : e.children = []) (hps : e.params = []) :
    Stands lo hi ts [e] :=
  stands_node (hc ▸ stands_nil) ha hw (by simp [hps])

/-- What stands for a token. -/
theorem stands_token {t : Token} (h : Tiled lo ts hi) (ht : t ∈ ts) (hs : e.span = t.span) (hc : e.children = [])
    (hps : e.params = []) : Stands lo hi ts [e] :=
  stands_opaque (hs ▸ h.anchored ht) (hs ▸ h.within ht) hc hps

theorem stands_ident {name : String} {s : Span} (h : Tiled lo [⟨.ident name, s⟩] hi) :
    Stands lo hi [⟨.ident name, s⟩] [.ident s name] :=
  stands_token h (List.mem_singleton_self _) rfl rfl rfl

end

namespace Grammar

/-- The nodes a phrase is made of. -/
def Phrase.nodes : Phrase → List Node
  | .expression e | .declarator e | .statement e => [e]
  | .items es | .declarators es | .statements es => es
  | .params _ => []

/-! ### What merging keeps -/

section
variable {P : Span → Prop} {phrase : Phrase} {e : Node} {es fs : List Node} {ts : List Token}

/-- The spans of the nodes and of all below them. -/
def SpannedAll (P : Span → Prop) (es : List Node) : Prop := ∀ e ∈ es, ∀ d ∈ e.nodes, P d.span

theorem spannedAll_nil : SpannedAll P [] := nofun

theorem SpannedAll.append (h : SpannedAll P es) (h' : SpannedAll P fs) : SpannedAll P (es ++ fs) :=
  fun e he => (List.mem_append.mp he).elim (h e) (h' e)

theorem SpannedAll.own (h : SpannedAll P [e]) : P e.span := h e List.mem_cons_self e e.mem_nodes_self

theorem spannedAll_node (hs : P e.span) (hc : SpannedAll P e.children) : SpannedAll P [e] := by
  intro c hc' d hd
  obtain rfl := List.mem_singleton.mp hc'
  rw [Node.nodes_eq] at hd
  rcases List.mem_cons.mp hd with rfl | hd
  · exact hs
  · obtain ⟨b, hb, hdb⟩ := List.mem_flatMap.mp hd
    exact hc b hb d hdb

variable (hmerge : ∀ {a b : Span}, P a → P b → P (a.merge b))
include hmerge

theorem spanOf_keeps (hne : ts ≠ []) (hts : ∀ t ∈ ts, P t.span) : P (spanOf ts) := by
  obtain ⟨last, hlast, hend⟩ := endOf_mem hne
  cases ts with
  | nil => exact absurd rfl hne
  | cons t us =>
    rw [spanOf, hend]
    exact hmerge (hts t List.mem_cons_self) (hts last hlast)

theorem Covers.spanned (h : Covers phrase ts) (hts : ∀ t ∈ ts, P t.span) : SpannedAll P phrase.nodes := by
  induction h with
  | number | string | ident | bool | null | this | empty =>
    have hspan := List.forall_mem_singleton.mp hts
    exact spannedAll_node hspan spannedAll_nil
  | parenthesized _ ih => exact ih fun t ht => hts t (by simp [ht])
  | array _ ih | block _ ih =>
    obtain ⟨hopened, hrest⟩ := List.forall_mem_cons.mp hts
    obtain ⟨hinner, hlast⟩ := List.forall_mem_append.mp hrest
    have hclosed := List.forall_mem_singleton.mp hlast
    exact spannedAll_node (hmerge hopened hclosed) (ih hinner)
  | dotted _ _ ih =>
    obtain ⟨hobject, hrest⟩ := List.forall_mem_append.mp hts
    have hname := List.forall_mem_singleton.mp (List.forall_mem_cons.mp hrest).2
    have ho := ih hobject
    exact spannedAll_node (hmerge ho.own hname) (ho.append (spannedAll_node hname spannedAll_nil))
  | computed _ _ iho ihp | call _ _ iho ihp =>
    obtain ⟨hobject, hrest⟩ := List.forall_mem_append.mp hts
    obtain ⟨hinner, hlast⟩ := List.forall_mem_append.mp (List.forall_mem_cons.mp hrest).2
    have ho := iho hobject
    have hclosed := List.forall_mem_singleton.mp hlast
    exact spannedAll_node (hmerge ho.own hclosed) (ho.append (ihp hinner))
  | binary _ _ ihl ihr =>
    have hl := ihl fun t ht => hts t (by simp [ht])
    have hr := ihr fun t ht => hts t (by simp [ht])
    exact spannedAll_node (hmerge hl.own hr.own) (hl.append hr)
  | signed _ _ ih =>
    obtain ⟨hsign, hoperand⟩ := List.forall_mem_cons.mp hts
    exact spannedAll_node (hmerge hsign (ih hoperand).own) spannedAll_nil
  | joined _ _ _ _ ihl ihr =>
    have hl := ihl fun t ht => hts t (by simp [ht])
    have hr := ihr fun t ht => hts t (by simp [ht])
    exact spannedAll_node (hmerge hl.own hr.own) spannedAll_nil
  | recognised | unsupportedStatement | returning =>
    exact spannedAll_node (spanOf_keeps hmerge (List.cons_ne_nil _ _) hts) spannedAll_nil
  | noItems | noParams | lastParam | param | noStatements => exact spannedAll_nil
  | lastItem _ ih | lastDeclarator _ ih => exact ih hts
  | item _ _ ihe ihes | moreDeclarators _ _ ihe ihes =>
    exact (ihe fun t ht => hts t (by simp [ht])).append (ihes fun t ht => hts t (by simp [ht]))
  | plain =>
    have hname := List.forall_mem_singleton.mp hts
    exact spannedAll_node (hmerge hname hname) (spannedAll_node hname spannedAll_nil)
  | initialized _ ih =>
    obtain ⟨hname, hrest⟩ := List.forall_mem_cons.mp hts
    exact spannedAll_node (spanOf_keeps hmerge (List.cons_ne_nil _ _) hts)
      ((spannedAll_node hname spannedAll_nil).append (ih (List.forall_mem_cons.mp hrest).2))
  | declaration _ _ ih | returningValue _ _ ih =>
    exact spannedAll_node (spanOf_keeps hmerge (List.cons_ne_nil _ _) hts) (ih fun t ht => hts t (by simp [ht]))
  | function _ _ _ ihbody =>
    have hname := (List.forall_mem_cons.mp (List.forall_mem_cons.mp hts).2).1
    exact spannedAll_node (spanOf_keeps hmerge (List.cons_ne_nil _ _) hts)
      ((spannedAll_node hname spannedAll_nil).append (ihbody fun t ht => hts t (by simp [ht])))
  | expressionStatement he _ ih =>
    have hvalue := ih fun t ht => hts t (by simp [ht])
    obtain ⟨last, hlast, hend⟩ := endOf_mem (List.append_ne_nil_of_left_ne_nil he.expression_ne_nil _)
    exact spannedAll_node (hmerge hvalue.own (hend ▸ hts last hlast)) hvalue
  | moreStatements _ _ ihs ihss =>
    exact (ihs fun t ht => hts t (by simp [ht])).append (ihss fun t ht => hts t (by simp [ht]))

end

/-! ### What tokens in order hold -/

theorem Covers.params_within {ps : List Param} {ts : List Token} {lo hi : Nat} (h : Covers (.params ps) ts)
    (htiled : Tiled lo ts hi) : ∀ p ∈ ps, p.span.Within lo hi := by
  generalize hp : Phrase.params ps = phrase at h
  induction h generalizing ps lo with
  | noParams =>
    cases hp
    simp
  | lastParam =>
    cases hp
    simpa using htiled.within (List.mem_singleton_self _)
  | @param p qs us s hqs ih =>
    cases hp
    obtain ⟨hstart, hlt, hrest⟩ := tiled_cons.mp htiled
    obtain ⟨hcomma, hlt', hus⟩ := tiled_cons.mp hrest
    refine List.forall_mem_cons.mpr ⟨⟨hstart, hrest.le⟩, fun q hq => ?_⟩
    obtain ⟨hqstart, hqstop⟩ := ih hus rfl q hq
    simp only at hstart hlt hcomma hlt' hqstart
    exact ⟨by omega, hqstop⟩
  | _ => cases hp

/-- What a phrase is made of stands where its tokens do. -/
theorem Covers.stands {phrase : Phrase} {ts : List Token} {lo hi : Nat} (h : Covers phrase ts) (htiled : Tiled lo ts hi) :
    Stands lo hi ts phrase.nodes := by
  induction h generalizing lo hi with
  | number | string | ident | bool | null | this => exact stands_token htiled (List.mem_singleton_self _) rfl rfl rfl
  | @parenthesized e us s s' _ ih =>
    obtain ⟨hlo, hlt, hrest⟩ := tiled_cons.mp htiled
    obtain ⟨mid, hus, hclose⟩ := tiled_append.mp hrest
    exact (ih hus).mono (by omega) hclose.le (by simp)
  | @array es us s s' _ ih =>
    refine stands_spanOf htiled (by simp) (by simp [spanOf, Node.span]) (fun h => ?_) (by simp [Node.params])
    obtain ⟨hlo, hlt, hrest⟩ := tiled_cons.mp h
    obtain ⟨mid, hus, hclose⟩ := tiled_append.mp hrest
    exact (ih hus).mono (by omega) hclose.le (by simp)
  | @dotted o us k name s s' _ _ ih =>
    obtain ⟨mid, hus, hrest⟩ := tiled_append.mp htiled
    obtain ⟨hlo, hlt, hname⟩ := tiled_cons.mp hrest
    obtain ⟨hstart, -, hstop⟩ := hname.token
    simp only at hlo hlt hstart hstop
    have hanchored : Anchored (us ++ [⟨.punct .dot, s⟩, ⟨k, s'⟩]) s' := htiled.anchored (t := ⟨k, s'⟩) (by simp)
    refine stands_behind rfl ((ih hus).among (by simp)) hanchored (by omega) hstop rfl ?_ rfl
    exact stands_opaque hanchored ⟨by simp only [Node.span]; omega, Nat.le_refl _⟩ rfl rfl
  | computed _ _ iho ihp => exact stands_suffix htiled rfl iho ihp rfl rfl
  | call _ _ ihf iha => exact stands_suffix htiled rfl ihf iha rfl rfl
  | @binary op l r us vs s _ _ ihl ihr =>
    obtain ⟨mid, hus, hrest⟩ := tiled_append.mp htiled
    obtain ⟨hlo, hlt, hvs⟩ := tiled_cons.mp hrest
    have hright : Stands s.stop hi (us ++ ⟨.punct op.punct, s⟩ :: vs) [r] := (ihr hvs).among (by intro t ht; simp [ht])
    obtain ⟨hstart, hle, hstop⟩ := hright.bounds
    simp only at hlo hlt
    refine stands_behind rfl ((ihl hus).among (by simp)) hright.anchored (by omega) hstop rfl ?_ rfl
    exact hright.own.mono (by omega) (Nat.le_refl _) (List.Subset.refl _)
  | @signed e t us _ _ ih =>
    obtain ⟨hlo, hlt, hus⟩ := tiled_cons.mp htiled
    have hoperand := (ih hus).among (List.subset_cons_self t us)
    obtain ⟨hstart, hle, hstop⟩ := hoperand.bounds
    have hword := htiled.anchored (t := t) List.mem_cons_self
    exact stands_opaque (hword.merge hoperand.anchored (by omega) (by omega))
      ((htiled.within List.mem_cons_self).merge ⟨by omega, hstop⟩) rfl rfl
  | @joined l r us between vs kind _ _ _ _ ihl ihr =>
    obtain ⟨mid, hus, hrest⟩ := tiled_append.mp htiled
    obtain ⟨mid', hbetween, hvs⟩ := tiled_append.mp hrest
    have hleft : Stands lo mid (us ++ (between ++ vs)) [l] := (ihl hus).among (by simp)
    have hright : Stands mid' hi (us ++ (between ++ vs)) [r] := (ihr hvs).among (by simp)
    obtain ⟨hlo, hle, hmid⟩ := hleft.bounds
    obtain ⟨hmid', hle', hhi⟩ := hright.bounds
    have hlevel := hbetween.le
    exact stands_opaque (hleft.anchored.merge hright.anchored (by omega) (by omega))
      (Span.Within.merge ⟨hlo, by omega⟩ ⟨by omega, hhi⟩) rfl rfl
  | @recognised t us kind _ =>
    exact stands_spanOf htiled (by simp) rfl (fun _ => stands_nil) (by simp [Node.params])
  | noItems | noParams | lastParam | param | noStatements => exact stands_nil
  | lastItem _ ih => exact ih htiled
  | item _ _ ihe ihes => exact stands_separated htiled ihe ihes
  | @plain name s =>
    refine stands_spanOf htiled (by simp) rfl (fun h => ?_) (by simp [Node.params])
    exact stands_ident h
  | @initialized name e us s q _ ih =>
    refine stands_spanOf htiled (by simp) rfl (fun h => ?_) (by simp [Node.params])
    exact stands_separated h stands_ident ih
  | lastDeclarator _ ih => exact ih htiled
  | moreDeclarators _ _ ihd ihds => exact stands_separated htiled ihd ihds
  | @declaration word ds us semi s _ _ ih =>
    refine stands_spanOf htiled (by simp) rfl (fun h => ?_) (by simp [Node.params])
    obtain ⟨hlo, hlt, hrest⟩ := tiled_cons.mp h
    obtain ⟨mid, hus, hsemi⟩ := tiled_append.mp hrest
    exact (ih hus).mono (by omega) hsemi.le (by intro t ht; simp [ht])
  | @function name ps body us vs s s' opened closed hps _ _ ihbody =>
    refine stands_spanOf htiled (by simp) rfl (fun h => ?_) (fun h => ?_)
    · obtain ⟨hlo, hlt, hrest⟩ := tiled_cons.mp h
      have hbody {lo hi : Nat} (h : Tiled lo (us ++ ⟨.punct .rparen, closed⟩ :: vs) hi) :
          Stands lo hi (us ++ ⟨.punct .rparen, closed⟩ :: vs) [body] :=
        stands_separated h (fun _ => stands_nil) ihbody
      exact (stands_separated hrest stands_ident hbody).mono (by omega) (Nat.le_refl _) (List.subset_cons_self _ _)
    · obtain ⟨hlo, hlt, hrest⟩ := tiled_cons.mp h
      obtain ⟨hlo', hlt', hrest⟩ := tiled_cons.mp hrest
      obtain ⟨hlo'', hlt'', hrest⟩ := tiled_cons.mp hrest
      obtain ⟨mid, hus, hrest⟩ := tiled_append.mp hrest
      have hle := hrest.le
      intro p hp
      obtain ⟨hstart, hstop⟩ := hps.params_within hus p hp
      exact ⟨by omega, by omega⟩
  | @returning semi s _ =>
    exact stands_spanOf htiled (by simp) rfl (fun _ => stands_nil) (by simp [Node.params])
  | @returningValue e us semi s _ _ ih =>
    refine stands_spanOf htiled (by simp) rfl (fun h => ?_) (by simp [Node.params])
    obtain ⟨hlo, hlt, hrest⟩ := tiled_cons.mp h
    obtain ⟨mid, hus, hsemi⟩ := tiled_append.mp hrest
    exact (ih hus).mono (by omega) hsemi.le (by intro t ht; simp [ht])
  | @block ss us s s' _ ih =>
    refine stands_spanOf htiled (by simp) (by simp [spanOf, Node.span]) (fun h => ?_) (by simp [Node.params])
    obtain ⟨hlo, hlt, hrest⟩ := tiled_cons.mp h
    obtain ⟨mid, hus, hclose⟩ := tiled_append.mp hrest
    exact (ih hus).mono (by omega) hclose.le (by simp)
  | @expressionStatement e us semi he _ ih =>
    obtain ⟨mid, hus, hsemi⟩ := tiled_append.mp htiled
    have hvalue := (ih hus).among (List.subset_append_left us semi)
    obtain ⟨hlo, hle, hstop⟩ := hvalue.bounds
    obtain ⟨last, hlast, hend⟩ := endOf_mem (List.append_ne_nil_of_left_ne_nil he.expression_ne_nil semi)
    have hanchored : Anchored (us ++ semi) (endOf (us ++ semi)) := hend ▸ htiled.anchored hlast
    have hwithin : (endOf (us ++ semi)).Within lo hi := hend ▸ htiled.within hlast
    -- The expression may end before its last token, with a parenthesis behind it.
    obtain ⟨hstarts, hstops⟩ : e.span.start ≤ (endOf (us ++ semi)).start ∧ e.span.stop ≤ (endOf (us ++ semi)).stop := by
      obtain ⟨-, a, ha, b, hb, heq⟩ := hvalue.anchored
      rw [heq]
      exact ⟨(htiled.le_endOf ha).1, (htiled.le_endOf hb).2⟩
    refine stands_node ?_ (hvalue.anchored.merge hanchored hstarts hstops) (Span.Within.merge ⟨hlo, ?_⟩ hwithin) (by simp [Node.params])
    · exact hvalue.own.mono (Nat.min_le_left _ _) (Nat.le_max_left _ _) (List.Subset.refl _)
    · exact Nat.le_trans hstop hsemi.le
  | empty => exact stands_token htiled (List.mem_singleton_self _) rfl rfl rfl
  | @unsupportedStatement t us kind _ =>
    exact stands_spanOf htiled (by simp) rfl (fun _ => stands_nil) (by simp [Node.params])
  | @moreStatements s ss us vs _ _ ihs ihss =>
    obtain ⟨mid, hus, hvs⟩ := tiled_append.mp htiled
    exact ((ihs hus).among (by simp)).append ((ihss hvs).among (by simp)) hus.le hvs.le

end Grammar

/-! ## The tree of a text -/

theorem InOrder.tiled {stop pos : Nat} {ts : List Token} {last : Token} (h : InOrder stop pos (ts ++ [last]))
    (hlast : last.kind = .eof) : last = ⟨.eof, .point stop⟩ ∧ Tiled pos ts stop := by
  generalize hus : ts ++ [last] = us at h
  induction h generalizing ts with
  | eof hle =>
    cases ts with
    | nil =>
      cases hus
      exact ⟨rfl, .nil hle⟩
    | cons t ts =>
      obtain ⟨-, hts⟩ := List.cons.inj hus
      simp at hts
  | token hk hle hlt _ ih =>
    cases ts with
    | nil =>
      cases hus
      exact absurd hlast hk
    | cons t ts =>
      obtain ⟨rfl, hts⟩ := List.cons.inj hus
      obtain ⟨heq, htiled⟩ := ih hts
      exact ⟨heq, .cons hle hlt htiled⟩

/-- The tree of a text covers its tokens. -/
theorem parse_covers {source : String} {tree : Node} (h : parse source = .ok tree) :
    ∃ body last ss, lex source = .ok (body ++ [last]) ∧ last.kind = .eof ∧ Grammar.Covers (.statements ss) body ∧
      tree = .program (spanOf (body ++ [last])) ss := by
  obtain ⟨ts, hlex, hread⟩ := parse_ok h
  obtain ⟨body, last, ss, rfl, hlast, hcovers, rfl⟩ := parseTokens_covers (lex_endsOnce hlex) hread
  exact ⟨body, last, ss, hlex, hlast, hcovers, rfl⟩

/-- The tokens of a text whose offsets spans can hold are tiles of it. -/
theorem lex_tiled {source : String} {body : List Token} {last : Token} (h : lex source = .ok (body ++ [last]))
    (hlast : last.kind = .eof) (hfits : source.utf8ByteSize ≤ Span.maxOffset) :
    last = ⟨.eof, .point source.utf8ByteSize⟩ ∧ Tiled 0 body source.utf8ByteSize :=
  (lex_inOrder h hfits).tiled hlast

/-- No span reaches beyond the text. -/
theorem spans_inside {source : String} {tree d : Node} (h : parse source = .ok tree) (hd : d ∈ tree.nodes) :
    d.span.start ≤ d.span.stop ∧ d.span.stop ≤ source.utf8ByteSize := by
  obtain ⟨body, last, ss, hlex, -, hcovers, rfl⟩ := parse_covers h
  have hinside : ∀ t ∈ body ++ [last], t.span.Inside source.utf8ByteSize := lex_inside hlex
  have hbody := hcovers.spanned .merge fun t ht => hinside t (List.mem_append_left _ ht)
  have htree := Grammar.spannedAll_node (e := .program _ ss) (Grammar.spanOf_keeps .merge (by simp) hinside) hbody
  exact htree _ List.mem_cons_self d hd

/-- With the end of input behind them, tokens stand between the start of the first and the end of the
    text. -/
theorem Tiled.program {lo size : Nat} {body : List Token} (h : Tiled lo body size) :
    Anchored (body ++ [⟨.eof, .point size⟩]) (spanOf (body ++ [⟨.eof, .point size⟩])) ∧
      (spanOf (body ++ [⟨.eof, .point size⟩])).Within lo size ∧
      Tiled (spanOf (body ++ [⟨.eof, .point size⟩])).start body (spanOf (body ++ [⟨.eof, .point size⟩])).stop := by
  cases body with
  | nil =>
    have hspan : spanOf ([] ++ [⟨.eof, .point size⟩]) = .point size := by simp [spanOf, Span.merge, Span.point]
    rw [hspan]
    exact ⟨⟨Nat.le_refl _, ⟨.eof, .point size⟩, by simp, ⟨.eof, .point size⟩, by simp, rfl⟩, ⟨h.le, Nat.le_refl _⟩,
      .nil (Nat.le_refl _)⟩
  | cons t us =>
    obtain ⟨hlo, hlt, hus⟩ := tiled_cons.mp h
    have hle := hus.le
    have hspan : spanOf (t :: us ++ [⟨.eof, .point size⟩]) = ⟨t.span.start, size⟩ := by
      simp only [spanOf, List.cons_append, Span.merge, endOf_cons (List.append_ne_nil_of_right_ne_nil us (List.cons_ne_nil _ _)),
        endOf_append (List.cons_ne_nil _ _), endOf_singleton, Span.point]
      rw [Nat.min_eq_left (by omega), Nat.max_eq_right hle]
    rw [hspan]
    refine ⟨⟨by simp only; omega, t, by simp, ⟨.eof, .point size⟩, by simp, rfl⟩, ⟨hlo, Nat.le_refl _⟩, ?_⟩
    exact tiled_cons.mpr ⟨Nat.le_refl _, hlt, hus⟩

/-- The span of every node runs from token to token, around the spans of its children in order and of
    its parameters; only the program may end with the end of input. -/
theorem spans_nest {source : String} {tree : Node} (h : parse source = .ok tree)
    (hfits : source.utf8ByteSize ≤ Span.maxOffset) :
    ∃ body last, lex source = .ok (body ++ [last]) ∧ last.kind = .eof ∧ (∀ t ∈ body, t.kind ≠ .eof) ∧
      ∀ d ∈ tree.nodes, Proper (body ++ [last]) d ∧ ((∀ span ss, d ≠ .program span ss) → Proper body d) := by
  obtain ⟨body, last, ss, hlex, heof, hcovers, rfl⟩ := parse_covers h
  obtain ⟨rfl, htiled⟩ := lex_tiled hlex heof hfits
  obtain ⟨hanchored, hwithin, htight⟩ := htiled.program
  have hbody : Stands _ _ body ss := hcovers.stands htight
  have htree := stands_node (e := .program _ ss) (hbody.among (List.subset_append_left _ _)) hanchored hwithin
    (by simp [Node.params])
  refine ⟨body, _, hlex, rfl, hcovers.nests.ne_eof, fun d hd => ⟨htree.proper _ (List.mem_singleton_self _) d hd, ?_⟩⟩
  intro hne
  rw [Node.nodes_eq] at hd
  rcases List.mem_cons.mp hd with rfl | hd
  · exact absurd rfl (hne _ _)
  · obtain ⟨s, hs, hd⟩ := List.mem_flatMap.mp hd
    exact hbody.proper s hs d hd

/-- Parentheses end before the call does, and a comma is left over. -/
theorem spans_nest_call : ∃ tree, parse "f((a), b.c,) ; function g(x) \x7b return x \x7d" = .ok tree ∧
    ∃ body last, lex "f((a), b.c,) ; function g(x) \x7b return x \x7d" = .ok (body ++ [last]) ∧ last.kind = .eof ∧
      (∀ t ∈ body, t.kind ≠ .eof) ∧
      ∀ d ∈ tree.nodes, Proper (body ++ [last]) d ∧ ((∀ span ss, d ≠ .program span ss) → Proper body d) := by
  have hok : (parse "f((a), b.c,) ; function g(x) \x7b return x \x7d").isOk = true := by decide +kernel
  obtain ⟨tree, h⟩ := exists_parse hok
  exact ⟨tree, h, spans_nest h (by decide)⟩

end Treewalk
