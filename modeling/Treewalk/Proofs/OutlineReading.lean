/-
  Treewalk.Proofs.OutlineReading — an outline determines the tree.

  A line shows how deep a node is, of which kind it is, and its details. Kinds have no blanks and details
  begin with one, so the three can be told apart (`Entry.indented_inj`) and the lines from one another. The nodes
  below a node stand right behind it and are deeper, so the depths say where its children end and what
  follows it begins (`bareAll_of_entries`).

  Names come from words of the source, and what is only recognised is of a kind that no other node has
  (`Legible`). Proved: two trees that were read have one outline if and only if they are the same up to
  spans (`outline_eq_iff`).
-/

import Treewalk.Proofs.LayoutFree
import Treewalk.Proofs.Leaves
import Treewalk.Proofs.OutlineTexts
import Treewalk.Proofs.Recognised

namespace Treewalk

/-! ## Words -/

/-- The text is a word of a source. -/
def IsWord (name : String) : Prop := Lexer.Spells .word name.toList

section
variable {name : String} {c : Char}

theorem IsWord.part (h : IsWord name) (hc : c ∈ name.toList) : Lexer.isWordPart c = true := by
  unfold IsWord at h
  generalize name.toList = cs at h hc
  cases h with
  | word hfirst hrest =>
    rcases List.mem_cons.mp hc with rfl | hc
    · rw [Lexer.isWordPart, hfirst, Bool.true_or]
    · exact hrest c hc

theorem IsWord.ne_nil (h : IsWord name) : name.toList ≠ [] := Lexer.Spells.ne_nil h

theorem IsWord.newline_not_mem (h : IsWord name) : '\n' ∉ name.toList := fun hc => absurd (h.part hc) (by decide)

end

/-! ## Names of parameters -/

/-- Names behind a comma each, and the parenthesis behind them. -/
def paramsTail (names : List String) : List Char := names.flatMap (fun name => ',' :: ' ' :: name.toList) ++ [')']

section
variable {names names' : List String}

theorem paramsTail_cons (name : String) (names : List String) :
    paramsTail (name :: names) = ',' :: ' ' :: (name.toList ++ paramsTail names) := by
  simp [paramsTail]

/-- Names end where a comma or the parenthesis stands. -/
theorem paramsTail_head (names : List String) : ∀ c ∈ (paramsTail names).head?, Lexer.isWordPart c = false := by
  intro c hc
  cases names with
  | nil =>
    cases hc
    rfl
  | cons name names =>
    cases hc
    rfl

theorem paramsTail_inj (h : ∀ name ∈ names, IsWord name) (h' : ∀ name ∈ names', IsWord name)
    (heq : paramsTail names = paramsTail names') : names = names' := by
  induction names generalizing names' with
  | nil =>
    cases names' with
    | nil => rfl
    | cons name' names' => cases heq
  | cons name names ih =>
    cases names' with
    | nil => cases heq
    | cons name' names' =>
      obtain ⟨hname, hnames⟩ := List.forall_mem_cons.mp h
      obtain ⟨hname', hnames'⟩ := List.forall_mem_cons.mp h'
      rw [paramsTail_cons, paramsTail_cons] at heq
      obtain ⟨hfirst, hrest⟩ := run_append_inj (fun _ => hname.part) (fun _ => hname'.part) (paramsTail_head names)
        (paramsTail_head names') (List.cons.inj (List.cons.inj heq).2).2
      rw [String.toList_inj.mp hfirst, ih hnames hnames' hrest]

theorem intercalate_toList (name : String) (names : List String) :
    (", ".intercalate (name :: names) ++ ")").toList = name.toList ++ paramsTail names := by
  induction names generalizing name with
  | nil => rw [String.intercalate_singleton, String.toList_append]; rfl
  | cons next names ih =>
    rw [String.intercalate_cons_cons, String.append_assoc, String.append_assoc, String.toList_append,
      String.toList_append, ih, paramsTail_cons]
    rfl

theorem intercalate_inj (h : ∀ name ∈ names, IsWord name) (h' : ∀ name ∈ names', IsWord name)
    (heq : ", ".intercalate names ++ ")" = ", ".intercalate names' ++ ")") : names = names' := by
  -- A parenthesis in front is no name.
  have hnone {name : String} {names : List String} (hname : IsWord name) :
      ", ".intercalate [] ++ ")" ≠ ", ".intercalate (name :: names) ++ ")" := by
    intro heq
    have hlist : [')'] = name.toList ++ paramsTail names :=
      (congrArg String.toList heq).trans (intercalate_toList name names)
    obtain ⟨c, cs, hc⟩ := List.exists_cons_of_ne_nil hname.ne_nil
    have hpart := hname.part (hc ▸ List.mem_cons_self : c ∈ name.toList)
    rw [hc] at hlist
    obtain ⟨rfl, -⟩ := List.cons.inj hlist
    cases hpart
  cases names with
  | nil =>
    cases names' with
    | nil => rfl
    | cons name' names' => exact absurd heq (hnone (h' name' List.mem_cons_self))
  | cons name names =>
    cases names' with
    | nil => exact absurd heq.symm (hnone (h name List.mem_cons_self))
    | cons name' names' =>
      have hlist := congrArg String.toList heq
      rw [intercalate_toList, intercalate_toList] at hlist
      refine paramsTail_inj h h' ?_
      rw [paramsTail_cons, paramsTail_cons, hlist]

theorem newline_not_mem_params (h : ∀ name ∈ names, '\n' ∉ name.toList) :
    '\n' ∉ (", ".intercalate names ++ ")").toList := by
  cases names with
  | nil => decide
  | cons name names =>
    obtain ⟨hname, hnames⟩ := List.forall_mem_cons.mp h
    rw [intercalate_toList, paramsTail]
    simpa [hname] using hnames

end

namespace Node

/-! ## Kinds -/

/-- The kinds of nodes with a rule. -/
def ruledKinds : List String :=
  ["Program", "VariableDeclaration", "VariableDeclarator", "FunctionDeclaration", "ReturnStatement", "BlockStatement",
    "ExpressionStatement", "EmptyStatement", "BinaryExpression", "Identifier", "NumericLiteral", "StringLiteral",
    "BooleanLiteral", "NullLiteral", "ThisExpression", "ArrayExpression", "MemberExpression", "CallExpression"]

/-- What a node says can be read off its line. -/
structure Legible (n : Node) : Prop where
  name : ∀ name, n.name? = some name → IsWord name
  params : ∀ p ∈ n.params, IsWord p.name
  kind : ∀ span kind, n = .unsupported span kind → kind ∈ recognisedKinds

section
variable {a b n : Node}

theorem Legible.kindName_mem (h : n.Legible) : n.kindName ∈ ruledKinds ++ recognisedKinds := by
  cases n with
  | unsupported span kind => exact List.mem_append_right _ (h.kind span kind rfl)
  | _ => exact List.mem_append_left _ (by simp [kindName, ruledKinds])

/-- The kind tells the constructor. -/
theorem Legible.idxOf_kindName (h : n.Legible) : ruledKinds.idxOf n.kindName = n.ctorIdx := by
  cases n with
  | unsupported span kind =>
    have hnone : ∀ kind ∈ recognisedKinds, ruledKinds.idxOf kind = 18 := by decide
    exact hnone kind (h.kind span kind rfl)
  | _ => rfl

/-! ## Details -/

/-- Details are behind a blank. -/
theorem detail_head (n : Node) : ∀ c ∈ n.detail.toList.head?, c = ' ' := by
  have hnone : ∀ c ∈ "".toList.head?, c = ' ' := nofun
  cases n with
  | bool _ b => cases b <;> simp [detail]
  | member _ _ _ computed => cases computed <;> simp [detail]
  | «variables» | function | binary | ident | number | string => simp [detail]
  | _ => exact hnone

theorem newline_not_mem_detail (h : n.Legible) : '\n' ∉ n.detail.toList := by
  have hnone : '\n' ∉ "".toList := by decide
  cases n with
  | «variables» _ word _ => cases word <;> simp [detail, DeclarationWord.text]
  | function _ _ ps _ =>
    have hnames : ∀ name ∈ ps.map (·.name), '\n' ∉ name.toList := by
      intro name hname
      obtain ⟨p, hp, rfl⟩ := List.mem_map.mp hname
      exact (h.params p hp).newline_not_mem
    rw [detail, String.append_assoc, String.toList_append]
    have hend : '\n' ∉ (", ".intercalate (ps.map (·.name)) ++ ")").toList := newline_not_mem_params hnames
    simpa using hend
  | binary _ op _ _ => cases op <;> simp [detail, BinaryOp.text]
  | ident _ name => simpa [detail] using (h.name name rfl).newline_not_mem
  | number _ x => simpa [detail] using Decimal.newline_not_mem_outline x
  | string _ t => simpa [detail] using Text.newline_not_mem_escaped t
  | bool _ b => cases b <;> simp [detail]
  | member _ _ _ computed => cases computed <;> simp [detail]
  | _ => exact hnone

/-- Nodes of one kind with the same details differ in their children only. -/
theorem bare_eq (ha : a.Legible) (hb : b.Legible) (hkind : a.kindName = b.kindName) (hdetail : a.detail = b.detail)
    (hchildren : bareAll a.children = bareAll b.children) : a.bare = b.bare := by
  have hctor : a.ctorIdx = b.ctorIdx := by rw [← ha.idxOf_kindName, ← hb.idxOf_kindName, hkind]
  simp only [bareAll_eq_map] at hchildren
  cases a with
  | program _ body =>
    cases b with
    | program _ body' => simpa [bare, children] using hchildren
    | _ => cases hctor
  | «variables» _ word ds =>
    cases b with
    | «variables» _ word' ds' =>
      have hword : word = word' := by
        simp only [detail, String.append_right_inj] at hdetail
        cases word <;> cases word' <;> first | rfl | exact absurd hdetail (by decide)
      simpa [bare, children, hword] using hchildren
    | _ => cases hctor
  | declarator _ id init =>
    cases b with
    | declarator _ id' init' => cases init <;> cases init' <;> simp_all [bare, children]
    | _ => cases hctor
  | function _ id ps body =>
    cases b with
    | function _ id' ps' body' =>
      have hnames {ps : List Param} (hps : ∀ p ∈ ps, IsWord p.name) : ∀ name ∈ ps.map (·.name), IsWord name := by
        simpa using hps
      have hps : ps.map (·.name) = ps'.map (·.name) := by
        simp only [detail, String.append_assoc, String.append_right_inj] at hdetail
        exact intercalate_inj (hnames ha.params) (hnames hb.params) hdetail
      have hbare : ps.map (fun p => (⟨p.name, .none⟩ : Param)) = ps'.map (fun p => ⟨p.name, .none⟩) := by
        simpa [Function.comp_def] using congrArg (List.map fun name => (⟨name, .none⟩ : Param)) hps
      simpa [bare, children, hbare] using hchildren
    | _ => cases hctor
  | returning _ argument =>
    cases b with
    | returning _ argument' => cases argument <;> cases argument' <;> simp_all [bare, children]
    | _ => cases hctor
  | block _ body =>
    cases b with
    | block _ body' => simpa [bare, children] using hchildren
    | _ => cases hctor
  | expression _ e =>
    cases b with
    | expression _ e' => simpa [bare, children] using hchildren
    | _ => cases hctor
  | empty =>
    cases b with
    | empty => rfl
    | _ => cases hctor
  | binary _ op l r =>
    cases b with
    | binary _ op' l' r' =>
      have hop : op = op' := by
        have hread (op : BinaryOp) : BinaryOp.ofText? op.text = some op := by cases op <;> rfl
        simp only [detail, String.append_right_inj] at hdetail
        exact Option.some.inj (by rw [← hread op, hdetail, hread op'])
      simpa [bare, children, hop] using hchildren
    | _ => cases hctor
  | ident _ name =>
    cases b with
    | ident _ name' => simpa [bare, detail] using hdetail
    | _ => cases hctor
  | number _ x =>
    cases b with
    | number _ y =>
      have hx : x = y := by
        simp only [detail, String.append_right_inj] at hdetail
        rw [← Decimal.readOutline_write x, hdetail, Decimal.readOutline_write]
      rw [bare, bare, hx]
    | _ => cases hctor
  | string _ t =>
    cases b with
    | string _ t' =>
      simp only [detail, String.append_right_inj] at hdetail
      rw [bare, bare, Text.escaped_inj hdetail]
    | _ => cases hctor
  | bool _ b₁ =>
    cases b with
    | bool _ b₂ => cases b₁ <;> cases b₂ <;> first | rfl | simp [detail] at hdetail
    | _ => cases hctor
  | null =>
    cases b with
    | null => rfl
    | _ => cases hctor
  | this =>
    cases b with
    | this => rfl
    | _ => cases hctor
  | array _ es =>
    cases b with
    | array _ es' => simpa [bare, children] using hchildren
    | _ => cases hctor
  | member _ o k computed =>
    cases b with
    | member _ o' k' computed' =>
      have hcomputed : computed = computed' := by
        cases computed <;> cases computed' <;> first | rfl | simp [detail] at hdetail
      simpa [bare, children, hcomputed] using hchildren
    | _ => cases hctor
  | call _ f as =>
    cases b with
    | call _ f' as' => simpa [bare, children] using hchildren
    | _ => cases hctor
  | unsupported _ kind =>
    cases b with
    | unsupported _ kind' => exact congrArg (Node.unsupported .none) hkind
    | _ => cases hctor

end

/-! ## Lines -/

/-- What a line shows: the depth, the kind and the details. -/
abbrev Entry := Nat × String × String

def Entry.indented (e : Entry) : List Char := List.replicate (2 * e.1) ' ' ++ (e.2.1.toList ++ e.2.2.toList)

/-- The parts of the line can be told apart, and the line ends with it. -/
structure Entry.Clear (e : Entry) : Prop where
  kind : e.2.1 ∈ ruledKinds ++ recognisedKinds
  detail : ∀ c ∈ e.2.2.toList.head?, c = ' '
  line : '\n' ∉ e.2.2.toList

theorem kinds_visible : ∀ kind ∈ ruledKinds ++ recognisedKinds,
    kind.toList ≠ [] ∧ ∀ c ∈ kind.toList, (c != ' ') = true ∧ c ≠ '\n' := by
  have hall : (ruledKinds ++ recognisedKinds).all
      (fun kind => kind.toList != [] && kind.toList.all fun c => c != ' ' && c != '\n') = true := by decide +kernel
  intro kind hkind
  simpa using List.all_eq_true.mp hall kind hkind

section
variable {e e' : Entry} {es es' : List Entry}

theorem Entry.Clear.newline_not_mem (h : e.Clear) : '\n' ∉ e.indented := by
  have hkind : '\n' ∉ e.2.1.toList := fun hc => ((kinds_visible _ h.kind).2 '\n' hc).2 rfl
  simp [indented, hkind, h.line]

theorem Entry.indented_inj (h : e.Clear) (h' : e'.Clear) (heq : e.indented = e'.indented) : e = e' := by
  have hblanks (n : Nat) : ∀ c ∈ List.replicate n ' ', (c == ' ') = true := fun c hc => by
    rw [List.eq_of_mem_replicate hc, beq_self_eq_true]
  have hkind {e : Entry} (h : e.Clear) : ∀ c ∈ (e.2.1.toList ++ e.2.2.toList).head?, (c == ' ') = false := fun c hc => by
    obtain ⟨hne, hvisible⟩ := kinds_visible _ h.kind
    obtain ⟨d, ds, hd⟩ := List.exists_cons_of_ne_nil hne
    rw [hd] at hvisible hc
    cases hc
    simpa using (hvisible c List.mem_cons_self).1
  have hdetail {e : Entry} (h : e.Clear) : ∀ c ∈ e.2.2.toList.head?, (c != ' ') = false := fun c hc => by
    rw [h.detail c hc]
    rfl
  obtain ⟨hindent, hrest⟩ := run_append_inj (hblanks _) (hblanks _) (hkind h) (hkind h') heq
  obtain ⟨hkinds, hdetails⟩ := run_append_inj (fun c hc => ((kinds_visible _ h.kind).2 c hc).1)
    (fun c hc => ((kinds_visible _ h'.kind).2 c hc).1) (hdetail h) (hdetail h') hrest
  have hdepth := congrArg List.length hindent
  rw [List.length_replicate, List.length_replicate] at hdepth
  exact Prod.ext (by omega) (Prod.ext (String.toList_inj.mp hkinds) (String.toList_inj.mp hdetails))

/-- Lines are told from one another. -/
theorem lines_inj (h : ∀ e ∈ es, e.Clear) (h' : ∀ e ∈ es', e.Clear)
    (heq : es.flatMap (fun e => e.indented ++ ['\n']) = es'.flatMap fun e => e.indented ++ ['\n']) : es = es' := by
  induction es generalizing es' with
  | nil =>
    cases es' with
    | nil => rfl
    | cons e' es' => simp at heq
  | cons e es ih =>
    cases es' with
    | nil => simp at heq
    | cons e' es' =>
      obtain ⟨he, hes⟩ := List.forall_mem_cons.mp h
      obtain ⟨he', hes'⟩ := List.forall_mem_cons.mp h'
      have hline {e : Entry} (h : e.Clear) : ∀ c ∈ e.indented, (c != '\n') = true := fun c hc => by
        refine bne_iff_ne.mpr ?_
        rintro rfl
        exact h.newline_not_mem hc
      have hend (cs : List Char) : ∀ c ∈ ('\n' :: cs).head?, (c != '\n') = false := fun c hc => by
        cases hc
        rfl
      rw [List.flatMap_cons, List.flatMap_cons, List.append_assoc, List.append_assoc] at heq
      obtain ⟨hfirst, hrest⟩ := run_append_inj (hline he) (hline he') (hend _) (hend _) heq
      rw [Entry.indented_inj he he' hfirst, ih hes hes' (List.cons.inj hrest).2]

end

/-! ## Forests -/

section
variable {n : Node} {ns ms : List Node}

/-- Down the children of the first node and along the nodes behind it. -/
theorem forest_induction {motive : List Node → Prop} (nil : motive [])
    (cons : ∀ n ns, motive n.children → motive ns → motive (n :: ns)) (ns : List Node) : motive ns := by
  induction hsize : (ns.flatMap nodes).length using Nat.strong_induction_on generalizing ns with
  | _ size ih =>
    cases ns with
    | nil => exact nil
    | cons n ns =>
      have hsplit : ((n :: ns).flatMap nodes).length =
          1 + (n.children.flatMap nodes).length + (ns.flatMap nodes).length := by
        rw [List.flatMap_cons, List.length_append, nodes_eq, List.length_cons, Nat.add_comm 1]
      exact cons n ns (ih _ (by omega) n.children rfl) (ih _ (by omega) ns rfl)

theorem walk_eq (depth : Nat) (n : Node) : n.walk depth = (depth, n) :: walkAll (depth + 1) n.children := by
  cases n with
  | declarator _ _ init => cases init <;> simp [walk, walkAll, children]
  | returning _ argument => cases argument <;> simp [walk, walkAll, children]
  | _ => simp [walk, walkAll, children]

/-- What the lines of nodes show that stand at a depth. -/
def entries (depth : Nat) (ns : List Node) : List Entry :=
  (walkAll depth ns).map fun e => (e.1, e.2.kindName, e.2.detail)

theorem entries_cons (depth : Nat) (n : Node) (ns : List Node) :
    entries depth (n :: ns) = (depth, n.kindName, n.detail) :: (entries (depth + 1) n.children ++ entries depth ns) := by
  simp only [entries, walkAll, walk_eq, List.map_cons, List.map_append, List.cons_append]

/-- The first line of nodes has the least depth. -/
theorem le_of_mem_entries (ns : List Node) (depth : Nat) : ∀ e ∈ entries depth ns, depth ≤ e.1 := by
  induction ns using forest_induction generalizing depth with
  | nil => exact nofun
  | cons n ns ihc ihs =>
    rw [entries_cons]
    refine List.forall_mem_cons.mpr ⟨Nat.le_refl _, List.forall_mem_append.mpr ⟨fun e he => ?_, ihs depth⟩⟩
    exact Nat.le_of_succ_le (ihc (depth + 1) e he)

/-- Lines of one depth and those below them determine the nodes: below a node is what stands deeper behind it. -/
theorem bareAll_of_entries {depth : Nat} (hns : ∀ n ∈ ns, ∀ d ∈ n.nodes, d.Legible)
    (hms : ∀ m ∈ ms, ∀ d ∈ m.nodes, d.Legible) (h : entries depth ns = entries depth ms) : bareAll ns = bareAll ms := by
  induction ns using forest_induction generalizing depth ms with
  | nil =>
    cases ms with
    | nil => rfl
    | cons m ms =>
      rw [entries_cons] at h
      cases h
  | cons n ns ihc ihs =>
    cases ms with
    | nil =>
      rw [entries_cons] at h
      cases h
    | cons m ms =>
      obtain ⟨hn, hns⟩ := List.forall_mem_cons.mp hns
      obtain ⟨hm, hms⟩ := List.forall_mem_cons.mp hms
      obtain ⟨hn, hnc⟩ := forall_nodes_iff.mp hn
      obtain ⟨hm, hmc⟩ := forall_nodes_iff.mp hm
      have hbelow (ns : List Node) : ∀ e ∈ entries (depth + 1) ns, decide (depth < e.1) = true := fun e he =>
        decide_eq_true (le_of_mem_entries ns (depth + 1) e he)
      have hbehind (ns : List Node) : ∀ e ∈ (entries depth ns).head?, decide (depth < e.1) = false := fun e he => by
        cases ns with
        | nil => cases he
        | cons n ns =>
          rw [entries_cons] at he
          cases he
          simp
      rw [entries_cons, entries_cons] at h
      obtain ⟨hfirst, hrest⟩ := List.cons.inj h
      obtain ⟨hchildren, hnext⟩ := run_append_inj (hbelow _) (hbelow _) (hbehind _) (hbehind _) hrest
      have hlabel : n.kindName = m.kindName ∧ n.detail = m.detail := by simpa using hfirst
      rw [bareAll, bareAll, bare_eq hn hm hlabel.1 hlabel.2 (ihc hnc hmc hchildren), ihs hns hms hnext]

end

/-! ## Outlines -/

section
variable {a b n : Node}

theorem Legible.clear (h : n.Legible) (depth : Nat) : Entry.Clear (depth, n.kindName, n.detail) :=
  ⟨h.kindName_mem, detail_head n, newline_not_mem_detail h⟩

theorem outline_toList (n : Node) : n.outline.toList = (entries 0 [n]).flatMap fun e => e.indented ++ ['\n'] := by
  rw [outline, String.toList_join, List.flatMap_map, entries, walkAll, walkAll, List.append_nil, List.flatMap_map]
  congr 1
  funext e
  simp [outlineLine, Entry.indented]

theorem entries_clear {depth : Nat} {ns : List Node} (h : ∀ n ∈ ns, ∀ d ∈ n.nodes, d.Legible) :
    ∀ e ∈ entries depth ns, e.Clear := by
  intro e he
  obtain ⟨⟨k, n⟩, hn, rfl⟩ := List.mem_map.mp he
  have hmem : n ∈ ns.flatMap nodes := by
    rw [← map_walkAll ns depth]
    exact List.mem_map.mpr ⟨(k, n), hn, rfl⟩
  obtain ⟨m, hm, hnm⟩ := List.mem_flatMap.mp hmem
  exact (h m hm n hnm).clear k

/-- Trees whose nodes are legible are the same up to spans if they have one outline. -/
theorem bare_eq_of_outline (ha : ∀ d ∈ a.nodes, d.Legible) (hb : ∀ d ∈ b.nodes, d.Legible) (h : a.outline = b.outline) :
    a.bare = b.bare := by
  have ha' : ∀ n ∈ [a], ∀ d ∈ n.nodes, d.Legible := List.forall_mem_singleton.mpr ha
  have hb' : ∀ n ∈ [b], ∀ d ∈ n.nodes, d.Legible := List.forall_mem_singleton.mpr hb
  have htext : ((entries 0 [a]).flatMap fun e => e.indented ++ ['\n']) =
      (entries 0 [b]).flatMap fun e => e.indented ++ ['\n'] := by
    rw [← outline_toList, ← outline_toList, h]
  have hbare := bareAll_of_entries ha' hb' (lines_inj (entries_clear ha') (entries_clear hb') htext)
  simpa using hbare

end

end Node

/-! ## Trees that are read -/

section
variable {source source' : String} {a b tree : Node}

/-- The nodes of a tree that was read are legible. -/
theorem parse_legible (h : parse source = .ok tree) : ∀ d ∈ tree.nodes, d.Legible := by
  obtain ⟨ts, hmakes, hwritten⟩ := parse_written h
  -- Names are read from tokens, and the lexemes of these are words.
  have hword {k : TokenKind} {name : String} {s : Span} (hk : Grammar.NamesProperty k name) (hmem : ⟨k, s⟩ ∈ ts) :
      IsWord name := by
    obtain ⟨lexeme, hmade⟩ := hmakes _ hmem
    obtain ⟨rest, hmunch⟩ := hmade.munch
    rw [← hmunch.named hk, IsWord, String.toList_ofList]
    exact (hmunch.word hk).1
  intro d hd
  refine ⟨fun name hname => ?_, fun p hp => hword (.ident _) ((hwritten d hd).params p hp), parse_recognised h d hd⟩
  obtain ⟨k, hk, hmem⟩ := (hwritten d hd).name name hname
  exact hword hk hmem

/-- Two trees that were read have one outline if and only if they are the same up to spans. -/
theorem outline_eq_iff (ha : parse source = .ok a) (hb : parse source' = .ok b) :
    a.outline = b.outline ↔ a.bare = b.bare := by
  refine ⟨Node.bare_eq_of_outline (parse_legible ha) (parse_legible hb), fun h => ?_⟩
  rw [← Node.outline_bare a, h, Node.outline_bare]

/-- Two sources with one outline: of what is only recognised the tree holds no more than the kind. -/
theorem outline_eq_iff_unary :
    let source := "f(-a, 'A')"
    let source' := "f ( ! b,\"\\x41\" );"
    let text := "Program\n  ExpressionStatement\n    CallExpression\n      Identifier f\n      UnaryExpression\n" ++
      "      StringLiteral \"A\"\n"
    ∃ a b, parse source = .ok a ∧ parse source' = .ok b ∧ a.span ≠ b.span ∧ a.outline = text ∧ b.outline = text ∧
      (a.outline = b.outline ↔ a.bare = b.bare) := by
  intro source source' text
  have hread : (parse source).toOption.map (fun n => (n.span, n.outline)) = some (⟨0, 10⟩, text) := by decide +kernel
  have hread' : (parse source').toOption.map (fun n => (n.span, n.outline)) = some (⟨0, 17⟩, text) := by decide +kernel
  cases ha : parse source with
  | error e =>
    rw [ha] at hread
    cases hread
  | ok a =>
    cases hb : parse source' with
    | error e =>
      rw [hb] at hread'
      cases hread'
    | ok b =>
      rw [ha] at hread
      rw [hb] at hread'
      obtain ⟨hspan, houtline⟩ := Prod.mk.inj (Option.some.inj hread)
      obtain ⟨hspan', houtline'⟩ := Prod.mk.inj (Option.some.inj hread')
      refine ⟨a, b, rfl, rfl, ?_, houtline, houtline', outline_eq_iff ha hb⟩
      rw [hspan, hspan']
      decide

end

end Treewalk
