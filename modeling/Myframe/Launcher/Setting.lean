import Myframe.Launcher.CommandLine

/-! # Settings of options

What an argument asks for comes down to settings: a name, and a text where there is one. An option that takes the
setting keeps it, and every other setting is reported.
-/
namespace Myframe
namespace Cmdline
set_option autoImplicit false

variable {V : Type}

namespace OptionBase

def take (text : Option String) (o : OptionBase V) : Option (OptionBase V) :=
  match text with
  | none => o.set
  | some value => o.setTo value

/-- What a setting leaves alone. -/
def shape : OptionBase V → Option Char × Bool × Option (String → Option V)
  | withoutValue c _ => (c, false, none)
  | withValue c need read _ _ => (c, need, some read)

/-- The option after these settings, of which a flag has no text and an option with a value has one. -/
def after (texts : List (Option String)) : OptionBase V → OptionBase V
  | withoutValue c has => withoutValue c (has || !texts.isEmpty)
  | withValue c need read has actual =>
    withValue c need read (has || !texts.isEmpty) ((texts.filterMap fun t => t.bind read).getLast?.getD actual)

theorem after_nil (o : OptionBase V) : o.after [] = o := by
  cases o with
  | withoutValue c has => exact congrArg (withoutValue c) (Bool.or_false has)
  | withValue c need read has actual => simp [after]

theorem after_append (o : OptionBase V) (xs ys : List (Option String)) :
    o.after (xs ++ ys) = (o.after xs).after ys := by
  have hHas : ∀ has : Bool, (has || !(xs ++ ys).isEmpty) = (has || !xs.isEmpty || !ys.isEmpty) := by
    intro has
    cases xs with
    | nil => simp
    | cons t xs => simp
  cases o with
  | withoutValue c has => simp only [after, hHas]
  | withValue c need read has actual =>
    simp only [after, hHas, List.filterMap_append, List.getLast?_append]
    congr 1
    cases (ys.filterMap fun t => t.bind read).getLast? with
    | none => rfl
    | some v => rfl

theorem take_eq_after {text : Option String} {o o' : OptionBase V} (h : o.take text = some o') :
    o' = o.after [text] := by
  cases o with
  | withoutValue c has =>
    cases text with
    | none =>
      obtain rfl : withoutValue c true = o' := by simpa [take, set] using h
      simp [after]
    | some value => simp [take, setTo] at h
  | withValue c need read has actual =>
    cases text with
    | none => simp [take, set] at h
    | some value =>
      obtain ⟨v, hRead, rfl⟩ : ∃ v, read value = some v ∧ withValue c need read true v = o' := by
        simpa [take, setTo, Option.map_eq_some_iff] using h
      simp [after, hRead]

theorem shape_after (o : OptionBase V) (texts : List (Option String)) : (o.after texts).shape = o.shape := by
  cases o with
  | withoutValue c has => rfl
  | withValue c need read has actual => rfl

theorem hasValue_eq (o : OptionBase V) : o.hasValue = o.shape.2.2.isSome := by
  cases o with
  | withoutValue c has => rfl
  | withValue c need read has actual => rfl

theorem take_isSome (o : OptionBase V) (text : Option String) : (o.take text).isSome =
    o.shape.2.2.elim text.isNone fun read => (text.bind read).isSome := by
  cases o with
  | withoutValue c has =>
    cases text with
    | none => rfl
    | some value => rfl
  | withValue c need read has actual =>
    cases text with
    | none => rfl
    | some value => simp [take, setTo, shape]

theorem valid_after (o : OptionBase V) (texts : List (Option String)) :
    (o.after texts).valid = (o.valid || !texts.isEmpty) := by
  cases o with
  | withoutValue c has => rfl
  | withValue c need read has actual => exact (Bool.or_assoc _ _ _).symm

end OptionBase

/-- A name, and a text where there is one. -/
abbrev Setting := String × Option String

def textsOf (settings : List Setting) (name : String) : List (Option String) :=
  (settings.filter fun s => s.1 = name).map Prod.snd

theorem textsOf_append (xs ys : List Setting) (name : String) :
    textsOf (xs ++ ys) name = textsOf xs name ++ textsOf ys name := by
  rw [textsOf, List.filter_append, List.map_append]
  rfl

theorem textsOf_nonempty {settings : List Setting} {name : String} :
    (!(textsOf settings name).isEmpty) = true ↔ ∃ s ∈ settings, s.1 = name := by
  simp [textsOf]

namespace Parser

def shape (p : Parser V) : List (String × Option Char × Bool × Option (String → Option V)) :=
  p.options.map fun e => (e.1, e.2.shape)

def setWith (p : Parser V) (s : Setting) : Parser V :=
  match s.2 with
  | none => p.setOption s.1
  | some value => p.setOptionTo s.1 value

def Takes (p : Parser V) (s : Setting) : Prop := ∃ o, p.options.lookup s.1 = some o ∧ (o.take s.2).isSome

theorem lookup_shape (p : Parser V) (name : String) :
    p.shape.lookup name = (p.options.lookup name).map OptionBase.shape := by
  rw [shape]
  induction p.options with
  | nil => rfl
  | cons e rest ih =>
    rw [List.map_cons, SortedMap.lookup_cons_ite, SortedMap.lookup_cons_ite, ih]
    split
    · rfl
    · rfl

theorem takes_iff_shape (p : Parser V) (s : Setting) : p.Takes s ↔ ∃ e, p.shape.lookup s.1 = some e ∧
    e.2.2.elim s.2.isNone (fun read => (s.2.bind read).isSome) = true := by
  rw [lookup_shape, Takes]
  simp only [Option.map_eq_some_iff, OptionBase.take_isSome]
  constructor
  · rintro ⟨o, hLookup, hTake⟩
    exact ⟨_, ⟨o, hLookup, rfl⟩, hTake⟩
  · rintro ⟨_, ⟨o, hLookup, rfl⟩, hTake⟩
    exact ⟨o, hLookup, hTake⟩

theorem takes_congr {p q : Parser V} (h : q.shape = p.shape) (s : Setting) : q.Takes s ↔ p.Takes s := by
  rw [takes_iff_shape, takes_iff_shape, h]

@[simp] theorem report_options (p : Parser V) (e : String) : (p.report e).options = p.options := rfl
@[simp] theorem report_shape (p : Parser V) (e : String) : (p.report e).shape = p.shape := rfl
@[simp] theorem report_others (p : Parser V) (e : String) : (p.report e).others = p.others := rfl

theorem report_errors_ne_nil (p : Parser V) (e : String) : (p.report e).errors ≠ [] :=
  List.append_ne_nil_of_right_ne_nil _ (List.cons_ne_nil e [])

/-- A setting is made where the option takes it. -/
theorem setWith_of_takes {p : Parser V} {s : Setting} (h : p.Takes s) : ∃ o o', p.options.lookup s.1 = some o ∧
    o.take s.2 = some o' ∧ p.setWith s = p.putOption s.1 o' := by
  obtain ⟨o, hLookup, hSome⟩ := h
  obtain ⟨o', hTake⟩ := Option.isSome_iff_exists.mp hSome
  refine ⟨o, o', hLookup, hTake, ?_⟩
  obtain ⟨name, text⟩ := s
  cases text with
  | none =>
    rw [OptionBase.take] at hTake
    simp only [setWith, setOption, hLookup, hTake]
  | some value =>
    rw [OptionBase.take] at hTake
    simp only [setWith, setOptionTo, hLookup, hTake]

/-- Otherwise it is reported. -/
theorem setWith_of_not_takes {p : Parser V} {s : Setting} (h : ¬p.Takes s) : ∃ e, p.setWith s = p.report e := by
  obtain ⟨name, text⟩ := s
  cases hLookup : p.options.lookup name with
  | none =>
    cases text with
    | none => exact ⟨_, by simp only [setWith, setOption, hLookup]; rfl⟩
    | some value => exact ⟨_, by simp only [setWith, setOptionTo, hLookup]; rfl⟩
  | some o =>
    have hTake : o.take text = none := by
      rw [← Option.not_isSome_iff_eq_none]
      exact fun hSome => h ⟨o, hLookup, hSome⟩
    cases text with
    | none =>
      rw [OptionBase.take] at hTake
      exact ⟨_, by simp only [setWith, setOption, hLookup, hTake]; rfl⟩
    | some value =>
      rw [OptionBase.take] at hTake
      exact ⟨_, by simp only [setWith, setOptionTo, hLookup, hTake]; rfl⟩

theorem setWith_options {p : Parser V} {s : Setting} (h : p.Takes s) :
    (p.setWith s).options = p.options.map fun e => (e.1, e.2.after (textsOf [s] e.1)) := by
  obtain ⟨o, o', hLookup, hTake, hSet⟩ := setWith_of_takes h
  have hPut : (p.putOption s.1 o').options = p.options.map fun e => (e.1, if e.1 = s.1 then o' else e.2) :=
    p.sorted.put_eq_map hLookup o'
  rw [hSet, hPut]
  apply List.map_congr_left
  intro e he
  obtain hEq | hNe := eq_or_ne e.1 s.1
  · have hOption : o = e.2 := by
      rw [← Option.some_inj, ← hLookup, ← hEq]
      exact p.sorted.lookup_of_mem he
    have hTexts : textsOf [s] e.1 = [s.2] := by simp [textsOf, hEq]
    rw [if_pos hEq, hTexts, ← hOption, OptionBase.take_eq_after hTake]
  · have hTexts : textsOf [s] e.1 = [] := by simp [textsOf, Ne.symm hNe]
    rw [if_neg hNe, hTexts, OptionBase.after_nil]

theorem setWith_shape (p : Parser V) (s : Setting) : (p.setWith s).shape = p.shape := by
  by_cases h : p.Takes s
  · rw [shape, setWith_options h, List.map_map]
    apply List.map_congr_left
    intro e he
    exact congrArg (e.1, ·) (OptionBase.shape_after e.2 _)
  · obtain ⟨e, hReport⟩ := setWith_of_not_takes h
    rw [hReport, report_shape]

theorem setWith_errors {p : Parser V} {s : Setting} (h : p.Takes s) : (p.setWith s).errors = p.errors := by
  obtain ⟨o, o', -, -, hSet⟩ := setWith_of_takes h
  rw [hSet]
  rfl

theorem setWith_others {p : Parser V} {s : Setting} (h : p.Takes s) : (p.setWith s).others = p.others := by
  obtain ⟨o, o', -, -, hSet⟩ := setWith_of_takes h
  rw [hSet]
  rfl

/-- Nothing is taken back that has been reported. -/
theorem setWith_clean {p : Parser V} {s : Setting} : (p.setWith s).errors = [] ↔ p.errors = [] ∧ p.Takes s := by
  constructor
  · intro hClean
    by_cases h : p.Takes s
    · exact ⟨setWith_errors h ▸ hClean, h⟩
    · obtain ⟨e, hReport⟩ := setWith_of_not_takes h
      exact absurd (hReport ▸ hClean) (report_errors_ne_nil p e)
  · rintro ⟨hClean, h⟩
    rw [setWith_errors h, hClean]

def setAll (p : Parser V) (settings : List Setting) : Parser V := settings.foldl setWith p

theorem setAll_shape (p : Parser V) (settings : List Setting) : (p.setAll settings).shape = p.shape := by
  induction settings generalizing p with
  | nil => rfl
  | cons s settings ih => exact (ih (p.setWith s)).trans (p.setWith_shape s)

theorem setAll_clean {p : Parser V} {settings : List Setting} :
    (p.setAll settings).errors = [] ↔ p.errors = [] ∧ ∀ s ∈ settings, p.Takes s := by
  induction settings generalizing p with
  | nil => exact (and_iff_left (List.forall_mem_nil _)).symm
  | cons s settings ih =>
    have hRest : (∀ s' ∈ settings, (p.setWith s).Takes s') ↔ ∀ s' ∈ settings, p.Takes s' :=
      forall₂_congr fun s' _ => takes_congr (p.setWith_shape s) s'
    rw [setAll, List.foldl_cons, ← setAll, ih, setWith_clean, hRest, List.forall_mem_cons, and_assoc]

theorem setAll_others {p : Parser V} {settings : List Setting} (h : ∀ s ∈ settings, p.Takes s) :
    (p.setAll settings).others = p.others := by
  induction settings generalizing p with
  | nil => rfl
  | cons s settings ih =>
    obtain ⟨hFirst, hRest⟩ := List.forall_mem_cons.mp h
    have hTakes : ∀ s' ∈ settings, (p.setWith s).Takes s' :=
      fun s' hs' => (takes_congr (p.setWith_shape s) s').mpr (hRest s' hs')
    exact (ih hTakes).trans (setWith_others hFirst)

theorem setAll_options {p : Parser V} {settings : List Setting} (h : ∀ s ∈ settings, p.Takes s) :
    (p.setAll settings).options = p.options.map fun e => (e.1, e.2.after (textsOf settings e.1)) := by
  induction settings generalizing p with
  | nil =>
    conv_lhs => rw [setAll, List.foldl_nil, ← List.map_id p.options]
    apply List.map_congr_left
    intro e he
    exact congrArg (e.1, ·) e.2.after_nil.symm
  | cons s settings ih =>
    obtain ⟨hFirst, hRest⟩ := List.forall_mem_cons.mp h
    have hTakes : ∀ s' ∈ settings, (p.setWith s).Takes s' :=
      fun s' hs' => (takes_congr (p.setWith_shape s) s').mpr (hRest s' hs')
    rw [setAll, List.foldl_cons, ← setAll, ih hTakes, setWith_options hFirst, List.map_map]
    apply List.map_congr_left
    intro e he
    have hTexts : textsOf (s :: settings) e.1 = textsOf [s] e.1 ++ textsOf settings e.1 :=
      textsOf_append [s] settings e.1
    rw [hTexts, OptionBase.after_append]
    rfl

end Parser
end Cmdline
end Myframe
