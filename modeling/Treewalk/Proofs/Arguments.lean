/-
  Treewalk.Proofs.Arguments — where an argument stands makes no difference, but to others of its kind.

  Said without the reader: `ColorFlag`, `DepthFlag` and `TruthyFlag` are the flags, each with the value it
  gives, and an input is what does not begin with two dashes. Arguments are `Accepted` if each is a
  flag or an input and there are no two inputs. An argument is `Faulty` behind others if it is neither, or the
  second input; `Names` are the messages that name it.

  Proved: arguments are read if and only if they are accepted (`read_ok_iff`); what is read is the input and for
  each option the last value given, or the default (`Reading`), so that other orders of accepted arguments give the
  same as long as flags of one kind keep theirs (`Rearranged.read_eq`); and what is wrong is the
  leftmost faulty argument (`read_error`). Together `read_arguments`.
-/

import Treewalk.CommandLine.Options
import Treewalk.Proofs.Literals

namespace Treewalk.RunOptions

open Lexer (Digits)

/-! ## Arguments -/

inductive ColorFlag : String → ColorMode → Prop
  | auto : ColorFlag "--color=auto" .auto
  | always : ColorFlag "--color=always" .always
  | never : ColorFlag "--color=never" .never

/-- Decimal digits, perhaps behind a plus, for a number of 64 bits. -/
inductive DepthFlag : String → Nat → Prop
  | intro {sign ds : List Char} : sign = [] ∨ sign = ['+'] → ds ≠ [] → Digits ds → Decimal.natOf ds < 2 ^ 64 →
      DepthFlag ("--max-call-depth=" ++ String.ofList (sign ++ ds)) (Decimal.natOf ds)

inductive TruthyFlag : String → Redeclaration → Prop
  | intro : TruthyFlag "--truthy-redeclaration" .truthy

def IsFlag (a : String) : Prop := (∃ m, ColorFlag a m) ∨ (∃ n, DepthFlag a n) ∨ ∃ r, TruthyFlag a r

/-- No two dashes in front. -/
def IsInput (a : String) : Prop := ¬ ['-', '-'] <+: a.toList

instance : DecidablePred IsInput := fun a => inferInstanceAs (Decidable (¬ ['-', '-'] <+: a.toList))

/-- Flags and inputs, and at most one of these. -/
structure Accepted (args : List String) : Prop where
  each : ∀ a ∈ args, IsFlag a ∨ IsInput a
  inputs : (args.filter (IsInput ·)).length ≤ 1

/-- No valid flag, or an input behind another. -/
def Faulty (before : List String) (a : String) : Prop :=
  ¬ IsFlag a ∧ ¬ IsInput a ∨ IsInput a ∧ ∃ b ∈ before, IsInput b

/-- What flags begin with that take a value. -/
def valued : List String := ["--color=", "--max-call-depth="]

/-- The message that names an argument: of a flag that takes a value it shows the value. -/
inductive Names : String → String → Prop
  | color (value : String) :
      Names ("--color=" ++ value) ("invalid color mode '" ++ value ++ "' (expected auto, always or never)")
  | depth (value : String) : Names ("--max-call-depth=" ++ value) ("invalid call depth '" ++ value ++ "'")
  | option (a : String) : ¬ IsInput a → (∀ front ∈ valued, ¬ front.toList <+: a.toList) →
      Names a ("unknown option '" ++ a ++ "'")
  | input (a : String) : IsInput a → Names a ("unexpected argument '" ++ a ++ "'")

/-- The value of the last argument that gives one, or the default if none does. -/
inductive Settles {α : Type} (flag : String → α → Prop) (fallback : α) : List String → α → Prop
  | unset {args : List String} : (∀ a ∈ args, ∀ v, ¬ flag a v) → Settles flag fallback args fallback
  | last {before after : List String} {a : String} {v : α} : flag a v → (∀ b ∈ after, ∀ w, ¬ flag b w) →
      Settles flag fallback (before ++ a :: after) v

/-- What accepted arguments say. -/
structure Reading (args : List String) (o : RunOptions) : Prop where
  input : o.input = (args.filter (IsInput ·)).head?
  color : Settles ColorFlag default.color args o.color
  depth : Settles DepthFlag default.eval.maxCallDepth args o.eval.maxCallDepth
  redeclaration : Settles TruthyFlag default.eval.redeclaration args o.eval.redeclaration
  others : o.sourceName = default.sourceName ∧ o.eval.color = default.eval.color

/-- The same arguments, those that give one option a value in the same order. -/
structure Rearranged (args args' : List String) : Prop where
  perm : args.Perm args'
  order : ∀ front ∈ valued,
    args.filter (fun a => front.toList.isPrefixOf a.toList) = args'.filter fun a => front.toList.isPrefixOf a.toList

/-! ## Texts -/

theorem after?_eq_some {front text v : String} : after? front text = some v ↔ text = front ++ v := by
  unfold after?
  rw [← String.toList_inj, String.toList_append]
  split
  next h =>
    obtain ⟨rest, hrest⟩ := List.isPrefixOf_iff_prefix.mp h
    rw [← hrest, ← String.length_toList, List.drop_left, Option.some_inj, List.append_cancel_left_eq, ← String.toList_inj,
      String.toList_ofList]
  next h =>
    refine iff_of_false nofun fun htext => h ?_
    rw [htext]
    exact List.isPrefixOf_iff_prefix.mpr (List.prefix_append _ _)

theorem after?_isSome {front text : String} : (after? front text).isSome = true ↔ front.toList <+: text.toList := by
  unfold after?
  rw [← List.isPrefixOf_iff_prefix]
  split <;> simp_all

theorem isInput_iff {a : String} : IsInput a ↔ after? "--" a = none := by
  rw [IsInput, ← Option.not_isSome_iff_eq_none, after?_isSome]
  rfl

section
variable {o o' : RunOptions} {a v : String} {m : ColorMode} {n : Nat} {r : Redeclaration} {e : OptionError}

/-! ## What an argument is -/

theorem of_color (v : String) : Argument.of ("--color=" ++ v) = .color v := by
  rw [Argument.of, after?_eq_some.mpr rfl]

theorem of_depth (v : String) : Argument.of ("--max-call-depth=" ++ v) = .depth v := by
  have hcolor : after? "--color=" ("--max-call-depth=" ++ v) = none := by
    rw [← Option.not_isSome_iff_eq_none, after?_isSome, String.toList_append]
    intro h
    exact absurd (List.prefix_of_prefix_length_le h (List.prefix_append _ _) (by decide)) (by decide)
  rw [Argument.of, hcolor, after?_eq_some.mpr rfl]

theorem of_truthy : Argument.of "--truthy-redeclaration" = .truthyRedeclaration := by decide +kernel

theorem not_isInput_append {front : String} (h : ['-', '-'] <+: front.toList) (v : String) : ¬ IsInput (front ++ v) := by
  rw [IsInput, not_not, String.toList_append]
  exact h.trans (List.prefix_append _ _)

theorem of_input (h : IsInput a) : Argument.of a = .input a := by
  have hnone {front : String} (hdashes : ['-', '-'] <+: front.toList) : after? front a = none := by
    rw [Option.eq_none_iff_forall_ne_some]
    intro v hv
    rw [after?_eq_some.mp hv] at h
    exact not_isInput_append hdashes v h
  have htruthy : a ≠ "--truthy-redeclaration" := by
    rintro rfl
    exact absurd h (by decide)
  rw [Argument.of, hnone (by decide), hnone (by decide)]
  simp only [htruthy, if_false, isInput_iff.mp h, Option.isSome_none, Bool.false_eq_true]

/-- Any other argument is unknown. -/
theorem of_cases (a : String) : (∃ v, a = "--color=" ++ v) ∨ (∃ v, a = "--max-call-depth=" ++ v) ∨
    a = "--truthy-redeclaration" ∨ IsInput a ∨ Argument.of a = .unknown a ∧ ¬ IsInput a := by
  cases hcolor : after? "--color=" a with
  | some v => exact .inl ⟨v, after?_eq_some.mp hcolor⟩
  | none =>
    cases hdepth : after? "--max-call-depth=" a with
    | some v => exact .inr (.inl ⟨v, after?_eq_some.mp hdepth⟩)
    | none =>
      by_cases htruthy : a = "--truthy-redeclaration"
      · exact .inr (.inr (.inl htruthy))
      · by_cases hinput : IsInput a
        · exact .inr (.inr (.inr (.inl hinput)))
        · have hdashes := Option.isSome_iff_ne_none.mpr (mt isInput_iff.mpr hinput)
          refine .inr (.inr (.inr (.inr ⟨?_, hinput⟩)))
          rw [Argument.of, hcolor, hdepth]
          simp only [htruthy, if_false, hdashes, if_true]

theorem not_valued (h : Argument.of a = .unknown a) : ∀ front ∈ valued, ¬ front.toList <+: a.toList := by
  have happend {front : String} (hfront : front.toList <+: a.toList) : ∃ v, a = front ++ v := by
    obtain ⟨v, hv⟩ := Option.isSome_iff_exists.mp (after?_isSome.mpr hfront)
    exact ⟨v, after?_eq_some.mp hv⟩
  refine List.forall_mem_cons.mpr ⟨fun hfront => ?_, List.forall_mem_cons.mpr ⟨fun hfront => ?_, List.forall_mem_nil _⟩⟩
  · obtain ⟨v, rfl⟩ := happend hfront
    rw [of_color] at h
    cases h
  · obtain ⟨v, rfl⟩ := happend hfront
    rw [of_depth] at h
    cases h

/-! ## Values -/

theorem ColorFlag.value (h : ColorFlag a m) : ∃ v, a = "--color=" ++ v ∧ ColorMode.ofText? v = some m := by
  cases h with
  | auto => exact ⟨"auto", rfl, rfl⟩
  | always => exact ⟨"always", rfl, rfl⟩
  | never => exact ⟨"never", rfl, rfl⟩

theorem colorFlag_iff : ColorFlag ("--color=" ++ v) m ↔ ColorMode.ofText? v = some m := by
  constructor
  · intro h
    obtain ⟨w, happend, hw⟩ := h.value
    rwa [(String.append_right_inj _).mp happend]
  · intro h
    unfold ColorMode.ofText? at h
    split at h
    · cases h
      exact .auto
    · cases h
      exact .always
    · cases h
      exact .never
    · cases h

theorem depth?_eq_some : depth? v = some n ↔ ∃ sign ds, v.toList = sign ++ ds ∧ (sign = [] ∨ sign = ['+']) ∧
    ds ≠ [] ∧ Digits ds ∧ Decimal.natOf ds = n ∧ n < 2 ^ 64 := by
  have hsome (ds : List Char) : (Decimal.wholeNat? ds).filter (· ≤ maxDepth) = some n ↔
      ds ≠ [] ∧ Digits ds ∧ Decimal.natOf ds = n ∧ n < 2 ^ 64 := by
    have hmax : n ≤ maxDepth ↔ n < 2 ^ 64 := Nat.le_sub_one_iff_lt (by decide)
    rw [Option.filter_eq_some_iff, Decimal.wholeNat?_eq_some, decide_eq_true_iff, hmax, and_assoc, and_assoc]
  by_cases hplus : ∃ ds, v.toList = '+' :: ds
  · obtain ⟨ds, hv⟩ := hplus
    rw [depth?, hv]
    refine (hsome ds).trans ⟨fun h => ⟨['+'], ds, rfl, .inr rfl, h⟩, ?_⟩
    rintro ⟨sign, ds', hds, rfl | rfl, h⟩
    · -- A plus is no digit.
      rw [List.nil_append] at hds
      cases h.2.1 '+' (hds ▸ List.mem_cons_self)
    · cases hds
      exact h
  · have hdepth : depth? v = (Decimal.wholeNat? v.toList).filter (· ≤ maxDepth) := by
      unfold depth?
      dsimp only
      split
      · exact absurd ⟨_, ‹_›⟩ hplus
      · rfl
    rw [hdepth]
    refine (hsome v.toList).trans ⟨fun h => ⟨[], v.toList, rfl, .inl rfl, h⟩, ?_⟩
    rintro ⟨sign, ds, hv, rfl | rfl, h⟩
    · rw [hv]
      exact h
    · exact absurd ⟨ds, hv⟩ hplus

theorem DepthFlag.value (h : DepthFlag a n) : ∃ v, a = "--max-call-depth=" ++ v ∧ depth? v = some n := by
  cases h with
  | @intro sign ds hsign hne hds hlt =>
    exact ⟨_, rfl, depth?_eq_some.mpr ⟨sign, ds, String.toList_ofList, hsign, hne, hds, rfl, hlt⟩⟩

theorem depthFlag_iff : DepthFlag ("--max-call-depth=" ++ v) n ↔ depth? v = some n := by
  constructor
  · intro h
    obtain ⟨w, happend, hw⟩ := h.value
    rwa [(String.append_right_inj _).mp happend]
  · intro h
    obtain ⟨sign, ds, hv, hsign, hne, hds, rfl, hlt⟩ := depth?_eq_some.mp h
    have h := DepthFlag.intro hsign hne hds hlt
    rwa [← hv, String.ofList_toList] at h

/-- A flag gives one value. -/
theorem ColorFlag.unique {m m' : ColorMode} (h : ColorFlag a m) (h' : ColorFlag a m') : m = m' := by
  obtain ⟨v, rfl, hv⟩ := h.value
  rw [colorFlag_iff, hv] at h'
  exact Option.some.inj h'

theorem DepthFlag.unique {n n' : Nat} (h : DepthFlag a n) (h' : DepthFlag a n') : n = n' := by
  obtain ⟨v, rfl, hv⟩ := h.value
  rw [depthFlag_iff, hv] at h'
  exact Option.some.inj h'

theorem TruthyFlag.unique {r r' : Redeclaration} (h : TruthyFlag a r) (h' : TruthyFlag a r') : r = r' := by
  cases h
  cases h'
  rfl

/-! ## Kinds of arguments exclude each other -/

theorem ColorFlag.of (h : ColorFlag a m) : ∃ v, Argument.of a = .color v := by
  obtain ⟨v, rfl, -⟩ := h.value
  exact ⟨v, of_color v⟩

theorem DepthFlag.of (h : DepthFlag a n) : ∃ v, Argument.of a = .depth v := by
  obtain ⟨v, rfl, -⟩ := h.value
  exact ⟨v, of_depth v⟩

theorem TruthyFlag.of (h : TruthyFlag a r) : Argument.of a = .truthyRedeclaration := by
  cases h
  exact of_truthy

theorem not_colorFlag (h : ∀ v, Argument.of a ≠ .color v) (m : ColorMode) : ¬ ColorFlag a m := fun hflag =>
  hflag.of.elim h

theorem not_depthFlag (h : ∀ v, Argument.of a ≠ .depth v) (n : Nat) : ¬ DepthFlag a n := fun hflag => hflag.of.elim h

theorem not_truthyFlag (h : Argument.of a ≠ .truthyRedeclaration) (r : Redeclaration) : ¬ TruthyFlag a r :=
  fun hflag => h hflag.of

theorem not_isInput (h : Argument.of a ≠ .input a) : ¬ IsInput a := fun hinput => h (of_input hinput)

theorem not_isFlag (hcolor : ∀ m, ¬ ColorFlag a m) (hdepth : ∀ n, ¬ DepthFlag a n) (htruthy : ∀ r, ¬ TruthyFlag a r) :
    ¬ IsFlag a := by
  rintro (⟨m, h⟩ | ⟨n, h⟩ | ⟨r, h⟩)
  · exact hcolor m h
  · exact hdepth n h
  · exact htruthy r h

theorem IsFlag.not_isInput (h : IsFlag a) : ¬ IsInput a := by
  obtain ⟨m, h⟩ | ⟨n, h⟩ | ⟨r, h⟩ := h
  · obtain ⟨v, hof⟩ := h.of
    exact RunOptions.not_isInput (by simp [hof])
  · obtain ⟨v, hof⟩ := h.of
    exact RunOptions.not_isInput (by simp [hof])
  · exact RunOptions.not_isInput (by simp [h.of])

/-! ## One argument -/

/-- All that one more argument can do. -/
inductive Step (o : RunOptions) (a : String) : Except OptionError RunOptions → Prop
  | color {m : ColorMode} : ColorFlag a m → Step o a (.ok { o with color := m })
  | depth {n : Nat} : DepthFlag a n → Step o a (.ok { o with eval := { o.eval with maxCallDepth := n } })
  | redeclaration {r : Redeclaration} : TruthyFlag a r →
      Step o a (.ok { o with eval := { o.eval with redeclaration := r } })
  | input : IsInput a → o.input = none → Step o a (.ok { o with input := some a })
  | second {e : OptionError} : IsInput a → o.input ≠ none → Names a e.message → Step o a (.error e)
  | invalid {e : OptionError} : ¬ IsFlag a → ¬ IsInput a → Names a e.message → Step o a (.error e)

theorem take_step (o : RunOptions) (a : String) : Step o a (o.take (.of a)) := by
  obtain ⟨v, rfl⟩ | ⟨v, rfl⟩ | rfl | hinput | ⟨hof, hinput⟩ := of_cases a
  · rw [of_color, take]
    cases hm : ColorMode.ofText? v with
    | some m => exact .color (colorFlag_iff.mpr hm)
    | none =>
      have hcolor : ∀ m, ¬ ColorFlag ("--color=" ++ v) m := by simp [colorFlag_iff, hm]
      have hflag := not_isFlag hcolor (not_depthFlag (by simp [of_color])) (not_truthyFlag (by simp [of_color]))
      exact .invalid hflag (not_isInput_append (by decide) v) (.color v)
  · rw [of_depth, take]
    cases hn : depth? v with
    | some n => exact .depth (depthFlag_iff.mpr hn)
    | none =>
      have hdepth : ∀ n, ¬ DepthFlag ("--max-call-depth=" ++ v) n := by simp [depthFlag_iff, hn]
      have hflag := not_isFlag (not_colorFlag (by simp [of_depth])) hdepth (not_truthyFlag (by simp [of_depth]))
      exact .invalid hflag (not_isInput_append (by decide) v) (.depth v)
  · rw [of_truthy, take]
    exact .redeclaration .intro
  · rw [of_input hinput, take]
    cases ho : o.input with
    | none => exact .input hinput ho
    | some b => exact .second hinput (by simp [ho]) (.input a hinput)
  · rw [hof, take]
    have hflag : ¬ IsFlag a :=
      not_isFlag (not_colorFlag (by simp [hof])) (not_depthFlag (by simp [hof])) (not_truthyFlag (by simp [hof]))
    exact .invalid hflag hinput (.option a hinput (not_valued hof))

end

/-! ## The last value of an option -/

section
variable {α : Type} {flag : String → α → Prop} {fallback v w : α} {args args' : List String} {a : String}

theorem Settles.given (h : flag a v) : Settles flag fallback (args ++ [a]) v := .last h (List.forall_mem_nil _)

theorem Settles.skip (h : Settles flag fallback args v) (ha : ∀ w, ¬ flag a w) : Settles flag fallback (args ++ [a]) v := by
  cases h with
  | unset hnone => exact .unset (List.forall_mem_append.mpr ⟨hnone, by simpa using ha⟩)
  | @last before after b _ hb hnone =>
    rw [List.append_assoc]
    exact .last hb (List.forall_mem_append.mpr ⟨hnone, by simpa using ha⟩)

/-- Arguments that are no such flag can go. -/
theorem Settles.filter {p : String → Bool} (hp : ∀ a v, flag a v → p a = true) (h : Settles flag fallback args v) :
    Settles flag fallback (args.filter p) v := by
  cases h with
  | unset hnone => exact .unset fun a ha => hnone a (List.mem_of_mem_filter ha)
  | last ha hnone =>
    rw [List.filter_append, List.filter_cons_of_pos (hp _ _ ha)]
    exact .last ha fun b hb => hnone b (List.mem_of_mem_filter hb)

/-- The last argument gives the value, or those in front of it do. -/
theorem Settles.of_concat (h : Settles flag fallback (args ++ [a]) v) :
    flag a v ∨ (∀ w, ¬ flag a w) ∧ Settles flag fallback args v := by
  generalize hargs : args ++ [a] = all at h
  cases h with
  | unset hnone =>
    subst hargs
    obtain ⟨hargs, ha⟩ := List.forall_mem_append.mp hnone
    exact .inr ⟨ha a (List.mem_singleton_self a), .unset hargs⟩
  | @last before after b _ hb hnone =>
    rcases after.eq_nil_or_concat' with rfl | ⟨after, c, rfl⟩
    · obtain ⟨-, hlast⟩ := List.append_inj' hargs rfl
      cases hlast
      exact .inl hb
    · rw [← List.cons_append, ← List.append_assoc] at hargs
      obtain ⟨rfl, hlast⟩ := List.append_inj' hargs rfl
      cases hlast
      obtain ⟨hafter, ha⟩ := List.forall_mem_append.mp hnone
      exact .inr ⟨ha a (List.mem_singleton_self a), .last hb hafter⟩

/-- If each flag gives one value, so do all of them. -/
theorem Settles.unique (hflag : ∀ a v w, flag a v → flag a w → v = w) (h : Settles flag fallback args v)
    (h' : Settles flag fallback args w) : v = w := by
  induction args using List.reverseRecOn with
  | nil =>
    have hnil {u : α} (h : Settles flag fallback [] u) : u = fallback := by
      generalize hargs : ([] : List String) = all at h
      cases h with
      | unset => rfl
      | last => simp at hargs
    rw [hnil h, hnil h']
  | append_singleton args a ih =>
    rcases h.of_concat with ha | ⟨hnone, h⟩ <;> rcases h'.of_concat with ha' | ⟨hnone', h'⟩
    · exact hflag a v w ha ha'
    · exact absurd ha (hnone' v)
    · exact absurd ha' (hnone w)
    · exact ih h h'

end

/-! ## All arguments -/

section
variable {args args' : List String} {o o' : RunOptions} {a : String} {e : OptionError}

theorem readFrom_concat (o : RunOptions) (args : List String) (a : String) :
    o.readFrom (args ++ [a]) = (o.readFrom args).bind fun o => o.take (.of a) := by
  induction args generalizing o with
  | nil =>
    simp only [List.nil_append, readFrom, Except.bind]
    cases o.take (.of a) <;> rfl
  | cons b args ih =>
    rw [List.cons_append, readFrom, readFrom]
    cases o.take (.of b) with
    | error e => rfl
    | ok o => exact ih o

theorem inputs_concat (ha : ¬ IsInput a) : (args ++ [a]).filter (IsInput ·) = args.filter (IsInput ·) := by
  rw [List.filter_append, List.filter_singleton, decide_eq_false ha]
  exact List.append_nil _

/-- As long as no input is read there is none. -/
theorem Reading.inputs_eq_nil (h : Reading args o) (ho : o.input = none) : args.filter (IsInput ·) = [] := by
  rw [h.input] at ho
  exact List.head?_eq_none_iff.mp ho

theorem inputs_concat_input (hargs : args.filter (IsInput ·) = []) (ha : IsInput a) :
    (args ++ [a]).filter (IsInput ·) = [a] := by
  rw [List.filter_append, hargs, List.filter_singleton, decide_eq_true ha]
  rfl

theorem Reading.step (h : Reading args o) (hs : Step o a (.ok o')) : Reading (args ++ [a]) o' := by
  have hinput (ha : IsFlag a) : o.input = ((args ++ [a]).filter (IsInput ·)).head? := by
    rw [inputs_concat ha.not_isInput]
    exact h.input
  cases hs with
  | color ha =>
    obtain ⟨v, hof⟩ := ha.of
    exact ⟨hinput (.inl ⟨_, ha⟩), .given ha, h.depth.skip (not_depthFlag (by simp [hof])),
      h.redeclaration.skip (not_truthyFlag (by simp [hof])), h.others⟩
  | depth ha =>
    obtain ⟨v, hof⟩ := ha.of
    exact ⟨hinput (.inr (.inl ⟨_, ha⟩)), h.color.skip (not_colorFlag (by simp [hof])), .given ha,
      h.redeclaration.skip (not_truthyFlag (by simp [hof])), h.others⟩
  | redeclaration ha =>
    have hof := ha.of
    exact ⟨hinput (.inr (.inr ⟨_, ha⟩)), h.color.skip (not_colorFlag (by simp [hof])),
      h.depth.skip (not_depthFlag (by simp [hof])), .given ha, h.others⟩
  | input ha ho =>
    have hof := of_input ha
    refine ⟨?_, h.color.skip (not_colorFlag (by simp [hof])), h.depth.skip (not_depthFlag (by simp [hof])),
      h.redeclaration.skip (not_truthyFlag (by simp [hof])), h.others⟩
    rw [inputs_concat_input (h.inputs_eq_nil ho) ha]
    rfl

theorem Accepted.step (h : Accepted args) (hr : Reading args o) (hs : Step o a (.ok o')) : Accepted (args ++ [a]) := by
  have heach (ha : IsFlag a ∨ IsInput a) : ∀ b ∈ args ++ [a], IsFlag b ∨ IsInput b :=
    List.forall_mem_append.mpr ⟨h.each, by simpa using ha⟩
  have hflag (ha : IsFlag a) : Accepted (args ++ [a]) :=
    ⟨heach (.inl ha), by rw [inputs_concat ha.not_isInput]; exact h.inputs⟩
  cases hs with
  | color ha => exact hflag (.inl ⟨_, ha⟩)
  | depth ha => exact hflag (.inr (.inl ⟨_, ha⟩))
  | redeclaration ha => exact hflag (.inr (.inr ⟨_, ha⟩))
  | input ha ho => exact ⟨heach (.inr ha), by rw [inputs_concat_input (hr.inputs_eq_nil ho) ha, List.length_singleton]⟩

theorem Reading.faulty (h : Reading args o) (hs : Step o a (.error e)) : Faulty args a ∧ Names a e.message := by
  cases hs with
  | second ha ho hnames =>
    refine ⟨.inr ⟨ha, ?_⟩, hnames⟩
    rw [h.input] at ho
    obtain ⟨b, hb⟩ := Option.ne_none_iff_exists'.mp ho
    obtain ⟨hmem, hinput⟩ := List.mem_filter.mp (List.mem_of_mem_head? hb)
    exact ⟨b, hmem, of_decide_eq_true hinput⟩
  | invalid hflag hinput hnames => exact ⟨.inl ⟨hflag, hinput⟩, hnames⟩

theorem Accepted.not_faulty {before after : List String} (h : Accepted (before ++ a :: after)) : ¬ Faulty before a := by
  rintro (⟨hflag, hinput⟩ | ⟨ha, b, hb, hinput⟩)
  · exact (h.each a (by simp)).elim hflag hinput
  · have hle := h.inputs
    have hb : b ∈ before.filter (IsInput ·) := List.mem_filter.mpr ⟨hb, decide_eq_true hinput⟩
    have hpos := List.length_pos_of_mem hb
    have hcons : (a :: after).filter (IsInput ·) = a :: after.filter (IsInput ·) := List.filter_cons_of_pos (decide_eq_true ha)
    rw [List.filter_append, hcons, List.length_append, List.length_cons] at hle
    omega

/-- By induction from the right: what has been read when one more argument comes. -/
theorem read_ok (h : read args = .ok o) : Accepted args ∧ Reading args o := by
  induction args using List.reverseRecOn generalizing o with
  | nil =>
    cases h
    exact ⟨⟨by simp, by simp⟩, ⟨rfl, .unset (by simp), .unset (by simp), .unset (by simp), rfl, rfl⟩⟩
  | append_singleton args a ih =>
    rw [read, readFrom_concat, ← read] at h
    cases hargs : read args with
    | error e =>
      rw [hargs] at h
      cases h
    | ok o₁ =>
      rw [hargs] at h
      obtain ⟨haccepted, hreading⟩ := ih hargs
      have hstep : Step o₁ a (.ok o) := h ▸ take_step o₁ a
      exact ⟨haccepted.step hreading hstep, hreading.step hstep⟩

theorem read_error (h : read args = .error e) :
    ∃ before a after, args = before ++ a :: after ∧ Accepted before ∧ Faulty before a ∧ Names a e.message := by
  induction args using List.reverseRecOn with
  | nil => cases h
  | append_singleton args a ih =>
    rw [read, readFrom_concat, ← read] at h
    cases hargs : read args with
    | error e₁ =>
      rw [hargs] at h
      cases h
      obtain ⟨before, b, after, rfl, hb⟩ := ih hargs
      exact ⟨before, b, after ++ [a], by simp, hb⟩
    | ok o =>
      rw [hargs] at h
      obtain ⟨haccepted, hreading⟩ := read_ok hargs
      exact ⟨args, a, [], rfl, haccepted, hreading.faulty (h ▸ take_step o a)⟩

theorem read_ok_iff : (∃ o, read args = .ok o) ↔ Accepted args := by
  refine ⟨fun ⟨o, h⟩ => (read_ok h).1, fun h => ?_⟩
  cases hread : read args with
  | ok o => exact ⟨o, rfl⟩
  | error e =>
    obtain ⟨before, a, after, rfl, -, hfaulty, -⟩ := read_error hread
    exact absurd hfaulty h.not_faulty

/-! ## Other orders -/

namespace Rearranged

theorem accepted (h : Rearranged args args') (hargs : Accepted args) : Accepted args' where
  each a ha := hargs.each a (h.perm.mem_iff.mpr ha)
  inputs := (h.perm.filter (IsInput ·)).length_eq ▸ hargs.inputs

/-- There is one order of one input. -/
theorem inputs_eq (h : Rearranged args args') (hargs : Accepted args) : args.filter (IsInput ·) = args'.filter (IsInput ·) := by
  have hperm := h.perm.filter (IsInput ·)
  have hle := hargs.inputs
  generalize args.filter (IsInput ·) = inputs at hperm hle
  cases inputs with
  | nil => exact hperm.nil_eq
  | cons a rest =>
    obtain rfl : rest = [] := List.length_eq_zero_iff.mp (by simpa using hle)
    exact (List.perm_singleton.mp hperm.symm).symm

/-- An option settles on the same value if its flags come in the same order. -/
theorem settles_eq {α : Type} {flag : String → α → Prop} {fallback v w : α} {p : String → Bool}
    (h : Settles flag fallback args v) (h' : Settles flag fallback args' w) (horder : args.filter p = args'.filter p)
    (hp : ∀ a v, flag a v → p a = true) (hunique : ∀ a v w, flag a v → flag a w → v = w) : v = w := by
  have hfilter := h.filter hp
  rw [horder] at hfilter
  exact hfilter.unique hunique (h'.filter hp)

theorem reading_eq (h : Rearranged args args') (hargs : Accepted args) (ho : Reading args o) (ho' : Reading args' o') :
    o = o' := by
  have hfront {front : String} (v : String) : front.toList.isPrefixOf (front ++ v).toList = true := by
    rw [String.toList_append]
    exact List.isPrefixOf_iff_prefix.mpr (List.prefix_append _ _)
  have hinput : o.input = o'.input := by rw [ho.input, ho'.input, h.inputs_eq hargs]
  have hcolor : o.color = o'.color := by
    refine settles_eq ho.color ho'.color (h.order "--color=" (by decide)) ?_ fun _ _ _ => ColorFlag.unique
    intro a m ha
    obtain ⟨v, rfl, -⟩ := ha.value
    exact hfront v
  have hdepth : o.eval.maxCallDepth = o'.eval.maxCallDepth := by
    refine settles_eq ho.depth ho'.depth (h.order "--max-call-depth=" (by decide)) ?_ fun _ _ _ => DepthFlag.unique
    intro a n ha
    obtain ⟨v, rfl, -⟩ := ha.value
    exact hfront v
  have hredeclaration : o.eval.redeclaration = o'.eval.redeclaration := by
    have horder : args.filter (· == "--truthy-redeclaration") = args'.filter (· == "--truthy-redeclaration") := by
      rw [List.filter_beq, List.filter_beq, h.perm.count_eq]
    refine settles_eq ho.redeclaration ho'.redeclaration horder ?_ fun _ _ _ => TruthyFlag.unique
    rintro _ _ ⟨⟩
    rfl
  obtain ⟨hname, hcolors⟩ := ho.others
  obtain ⟨hname', hcolors'⟩ := ho'.others
  obtain ⟨input, name, color, depth, redeclaration, colors⟩ := o
  obtain ⟨input', name', color', depth', redeclaration', colors'⟩ := o'
  simp_all

theorem read_eq (h : Rearranged args args') (ho : read args = .ok o) : read args' = .ok o := by
  obtain ⟨hargs, hreading⟩ := read_ok ho
  obtain ⟨o', ho'⟩ := read_ok_iff.mpr (h.accepted hargs)
  rw [ho', h.reading_eq hargs hreading (read_ok ho').2]

end Rearranged

end

/-- Arguments are read if and only if each is a valid flag or an input and there are no two inputs. What is read is
    the input and, for each option, its last value or the default. Other orders that keep the order of the flags
    for one option give the same. Otherwise what is wrong is the leftmost argument that is no valid flag and no
    input, or a second input. -/
theorem read_arguments (args : List String) :
    ((∃ o, read args = .ok o) ↔ Accepted args) ∧
    (∀ o, read args = .ok o → Reading args o ∧ ∀ args', Rearranged args args' → read args' = .ok o) ∧
    ∀ e, read args = .error e → ∃ before a after, args = before ++ a :: after ∧ Faulty before a ∧ Names a e.message ∧
      ∀ before' b after', before = before' ++ b :: after' → ¬ Faulty before' b := by
  refine ⟨read_ok_iff, fun o ho => ⟨(read_ok ho).2, fun args' h => h.read_eq ho⟩, fun e he => ?_⟩
  obtain ⟨before, a, after, hargs, hbefore, hfaulty, hnames⟩ := read_error he
  refine ⟨before, a, after, hargs, hfaulty, hnames, ?_⟩
  rintro before' b after' rfl
  exact hbefore.not_faulty

/-- Two colors and a depth with a plus, and the input behind them or between; then three arguments of which the second
    is the first that is wrong. -/
theorem read_arguments_rearranged :
    read ["--max-call-depth=+007", "--color=always", "--truthy-redeclaration", "--color=never", "-a.js"] =
        .ok ⟨some "-a.js", "<input>", .never, ⟨7, .truthy, false⟩⟩ ∧
      ∃ before a after, ["a.js", "--color=sometimes", "b.js"] = before ++ a :: after ∧ Faulty before a ∧
        Names a "invalid color mode 'sometimes' (expected auto, always or never)" ∧
        ∀ before' b after', before = before' ++ b :: after' → ¬ Faulty before' b := by
  have hread : read ["--color=always", "-a.js", "--max-call-depth=+007", "--color=never", "--truthy-redeclaration"] =
      .ok ⟨some "-a.js", "<input>", .never, ⟨7, .truthy, false⟩⟩ := by decide +kernel
  have herror : read ["a.js", "--color=sometimes", "b.js"] = .error (.invalidColor "sometimes") := by decide +kernel
  refine ⟨((read_arguments _).2.1 _ hread).2 _ ⟨by decide, ?_⟩, (read_arguments _).2.2 _ herror⟩
  exact List.forall_mem_cons.mpr ⟨rfl, List.forall_mem_cons.mpr ⟨rfl, List.forall_mem_nil _⟩⟩

end Treewalk.RunOptions
