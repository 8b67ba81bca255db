import Myframe.Launcher.Setting
import Mathlib.Data.List.TakeWhile

/-! # What the parser accepts

An item is a way to write something on the command line, in one word or in two. The parser accepts the words of
the lists of items that fit its options, and nothing else.
-/
namespace Myframe
namespace Cmdline
set_option autoImplicit false

variable {V : Type}

namespace Parser

/-- The letters of the options that have a name. -/
def letters (entries : List (String × OptionBase V)) : List Char :=
  (entries.filter fun e => e.1 ≠ "").filterMap fun e => e.2.shortName

def findLetter (entries : List (String × OptionBase V)) (c : Char) : Option String :=
  (entries.find? fun e => e.1 ≠ "" && e.2.shortName = some c).map Prod.fst

def Unambiguous (p : Parser V) : Prop := (letters p.options).Nodup

instance (p : Parser V) : Decidable p.Unambiguous := inferInstanceAs (Decidable (letters p.options).Nodup)

/-- The name that a letter stands for, empty where it stands for none. -/
def long (p : Parser V) (c : Char) : String := (findLetter p.options c).getD ""

theorem findLetter_isSome {entries : List (String × OptionBase V)} {c : Char} :
    (findLetter entries c).isSome ↔ c ∈ letters entries := by
  simp only [findLetter, letters, Option.isSome_map, List.find?_isSome, List.mem_filterMap, List.mem_filter,
    Bool.and_eq_true, decide_eq_true_eq]
  constructor
  · rintro ⟨e, he, hName, hLetter⟩
    exact ⟨e, ⟨he, hName⟩, hLetter⟩
  · rintro ⟨e, ⟨he, hName⟩, hLetter⟩
    exact ⟨e, he, hName, hLetter⟩

theorem shortNames_cons (e : String × OptionBase V) (rest : List (String × OptionBase V))
    (lookup : List (Char × String)) : shortNames (e :: rest) lookup =
      if e.1 = "" then shortNames rest lookup
      else
        match e.2.shortName with
        | none => shortNames rest lookup
        | some initial =>
          if (lookup.lookup initial).isSome then .error initial
          else shortNames rest (SortedMap.put initial e.1 lookup) := rfl

theorem shortNames_spec (entries : List (String × OptionBase V)) (lookup : List (Char × String)) :
    ((letters entries).Nodup ∧ (∀ c ∈ letters entries, lookup.lookup c = none) ∧
        ∃ table, shortNames entries lookup = .ok table ∧
          ∀ c, table.lookup c = (findLetter entries c).or (lookup.lookup c)) ∨
      ¬((letters entries).Nodup ∧ ∀ c ∈ letters entries, lookup.lookup c = none) ∧
        ∃ initial, shortNames entries lookup = .error initial := by
  induction entries generalizing lookup with
  | nil => exact .inl ⟨List.nodup_nil, List.forall_mem_nil _, lookup, rfl, fun c => rfl⟩
  | cons e rest ih =>
    rw [shortNames_cons]
    split
    · next hEmpty =>
      have hLetters : letters (e :: rest) = letters rest := by simp [letters, hEmpty]
      have hFind : findLetter (e :: rest) = findLetter rest := by funext c; simp [findLetter, hEmpty]
      rw [hLetters, hFind]
      exact ih lookup
    · next hName =>
      cases hLetter : e.2.shortName with
      | none =>
        have hLetters : letters (e :: rest) = letters rest := by simp [letters, hName, hLetter]
        have hFind : findLetter (e :: rest) = findLetter rest := by funext c; simp [findLetter, hLetter]
        rw [hLetters, hFind]
        exact ih lookup
      | some initial =>
        have hLetters : letters (e :: rest) = initial :: letters rest := by simp [letters, hName, hLetter]
        have hFind : ∀ c, findLetter (e :: rest) c = if c = initial then some e.1 else findLetter rest c := by
          intro c
          obtain rfl | hNe := eq_or_ne c initial
          · simp [findLetter, hName, hLetter]
          · simp [findLetter, hName, hLetter, hNe, hNe.symm]
        simp only [hLetters, hFind, List.nodup_cons, List.forall_mem_cons]
        cases hFree : lookup.lookup initial with
        | some name => exact .inr ⟨by rintro ⟨-, ⟨⟩, -⟩, initial, rfl⟩
        | none =>
          simp only [Option.isSome_none, Bool.false_eq_true, if_false]
          obtain ⟨hNodup, hNew, table, hTable, hLookup⟩ | ⟨hNot, hError⟩ := ih (SortedMap.put initial e.1 lookup)
          · have hNotMem : initial ∉ letters rest := by
              intro hMem
              have hNone := hNew initial hMem
              rw [SortedMap.lookup_put, if_pos rfl] at hNone
              cases hNone
            have hOld : ∀ c ∈ letters rest, lookup.lookup c = none := by
              intro c hc
              have hNone := hNew c hc
              rwa [SortedMap.lookup_put, if_neg (ne_of_mem_of_not_mem hc hNotMem)] at hNone
            refine .inl ⟨⟨hNotMem, hNodup⟩, ⟨trivial, hOld⟩, table, hTable, fun c => ?_⟩
            rw [hLookup, SortedMap.lookup_put]
            split
            · next hEq =>
              have hNone : findLetter rest c = none := by
                rw [← Option.not_isSome_iff_eq_none, findLetter_isSome, hEq]
                exact hNotMem
              rw [hNone, Option.none_or, Option.some_or]
            · rfl
          · refine .inr ⟨?_, hError⟩
            rintro ⟨⟨hNotMem, hNodup⟩, -, hOld⟩
            refine hNot ⟨hNodup, fun c hc => ?_⟩
            rw [SortedMap.lookup_put, if_neg (ne_of_mem_of_not_mem hc hNotMem)]
            exact hOld c hc

/-- The table gives each letter its option, and no letter of it is ambiguous. -/
theorem shortOption_ok_iff {p : Parser V} {table : List (Char × String)} (h : shortNames p.options [] = .ok table)
    {c : Char} {name : String} : shortOption table c = .ok name ↔ name ≠ "" ∧ p.long c = name := by
  obtain ⟨-, -, table', hTable, hLookup⟩ | ⟨-, initial, hError⟩ := shortNames_spec p.options []
  · obtain rfl : table' = table := Except.ok.inj (hTable.symm.trans h)
    have hFind : table'.lookup c = findLetter p.options c := (hLookup c).trans (Option.or_none)
    rw [shortOption, hFind, long]
    cases hLetter : findLetter p.options c with
    | none =>
      constructor
      · rintro ⟨⟩
      · rintro ⟨hName, rfl⟩
        exact absurd rfl hName
    | some long =>
      simp only [Option.getD_some]
      split
      · next hEmpty =>
        constructor
        · rintro ⟨⟩
        · rintro ⟨hName, rfl⟩
          exact absurd hEmpty hName
      · next hName =>
        constructor
        · rintro ⟨⟩
          exact ⟨hName, rfl⟩
        · rintro ⟨-, rfl⟩
          rfl
  · rw [hError] at h
    cases h

theorem unambiguous_iff (p : Parser V) : p.Unambiguous ↔ ∃ table, shortNames p.options [] = .ok table := by
  obtain ⟨hNodup, -, table, hTable, -⟩ | ⟨hNot, initial, hError⟩ := shortNames_spec p.options []
  · exact iff_of_true hNodup ⟨table, hTable⟩
  · apply iff_of_false
    · exact fun hNodup => hNot ⟨hNodup, fun c hc => rfl⟩
    · rintro ⟨table, hTable⟩
      cases hError.symm.trans hTable

end Parser

inductive Item where
  /-- `--name=value` -/
  | assign (name value : String)
  /-- `--name value` -/
  | given (name value : String)
  /-- `--name` -/
  | flag (name : String)
  /-- `-abc`, where `c` is the last letter. -/
  | cluster (flags : List Char) (last : Char)
  /-- `-abc value` -/
  | clusterGiven (flags : List Char) (last : Char) (value : String)
  | dash
  | plain (word : String)
  deriving DecidableEq, Repr

namespace Item

def words : Item → List String
  | assign name value => ["--" ++ name ++ "=" ++ value]
  | given name value => ["--" ++ name, value]
  | flag name => ["--" ++ name]
  | cluster flags last => [.ofList ('-' :: (flags ++ [last]))]
  | clusterGiven flags last value => [.ofList ('-' :: (flags ++ [last])), value]
  | dash => ["-"]
  | plain word => [word]

def letters : Item → List Char
  | cluster flags last => flags ++ [last]
  | clusterGiven flags last _ => flags ++ [last]
  | _ => []

def positional : Item → List String
  | plain word => [word]
  | _ => []

def settings (p : Parser V) : Item → List Setting
  | assign name value => [(name, some value)]
  | given name value => [(name, some value)]
  | flag name => [(name, none)]
  | cluster flags last => (flags.map fun c => (p.long c, none)) ++ [(p.long last, none)]
  | clusterGiven flags last value => (flags.map fun c => (p.long c, none)) ++ [(p.long last, some value)]
  | dash => []
  | plain _ => []

/-- The first word does not read as that of another kind of item. -/
def Spelled : Item → Prop
  | assign name _ => '=' ∉ name.toList
  | given name _ => '=' ∉ name.toList
  | flag name => '=' ∉ name.toList
  | cluster flags last => (flags ++ [last]).head? ≠ some '-'
  | clusterGiven flags last _ => (flags ++ [last]).head? ≠ some '-'
  | dash => True
  | plain word => word.toList.head? ≠ some '-'

structure Fits (p : Parser V) (i : Item) : Prop where
  spelled : i.Spelled
  known : ∀ c ∈ i.letters, p.long c ≠ ""
  takes : ∀ s ∈ i.settings p, p.Takes s

end Item

namespace Parser

/-- The parser after an item. -/
def act (p q : Parser V) (i : Item) : Parser V :=
  { q.setAll (i.settings p) with others := q.others ++ i.positional }

theorem take_hasValue {o : OptionBase V} {text : Option String} (h : (o.take text).isSome) :
    o.hasValue = text.isSome := by
  rw [OptionBase.take_isSome] at h
  rw [OptionBase.hasValue_eq]
  cases hRead : o.shape.2.2 with
  | none =>
    rw [hRead] at h
    cases text with
    | none => rfl
    | some value => exact absurd h Bool.false_ne_true
  | some read =>
    rw [hRead] at h
    cases text with
    | none => exact absurd h Bool.false_ne_true
    | some value => rfl

theorem longArg_assign (q : Parser V) {name : List Char} (h : '=' ∉ name) (value : List Char)
    (next : Option String) : q.longArg (name ++ '=' :: value) next =
      (q.setWith (.ofList name, some (.ofList value)), false) := by
  have hName : ∀ c ∈ name, decide (c ≠ '=') = true := fun c hc => decide_eq_true (ne_of_mem_of_not_mem hc h)
  have hRest : (name ++ '=' :: value).dropWhile (· ≠ '=') = '=' :: value := by
    rw [List.dropWhile_append_of_pos hName, List.dropWhile_cons_of_neg (by decide)]
  have hFirst : (name ++ '=' :: value).takeWhile (· ≠ '=') = name := by
    rw [List.takeWhile_append_of_pos hName, List.takeWhile_cons_of_neg (by decide), List.append_nil]
  rw [longArg, hRest, hFirst]
  rfl

theorem longArg_name (q : Parser V) {text : List Char} (h : '=' ∉ text) (next : Option String) :
    q.longArg text next =
      match q.options.lookup (String.ofList text) with
      | none => (q.report ("undefined option: --" ++ String.ofList text), false)
      | some o =>
        if o.hasValue = true then
          match next with
          | none => (q.report ("option needs value: --" ++ String.ofList text), false)
          | some value => (q.setWith (.ofList text, some value), true)
        else (q.setWith (.ofList text, none), false) := by
  have hRest : text.dropWhile (· ≠ '=') = [] :=
    List.dropWhile_eq_nil_iff.mpr fun c hc => decide_eq_true (ne_of_mem_of_not_mem hc h)
  rw [longArg, hRest]
  rfl

theorem longArg_flag {q : Parser V} {text : List Char} (h : '=' ∉ text)
    (hTakes : q.Takes (.ofList text, none)) (next : Option String) :
    q.longArg text next = (q.setWith (.ofList text, none), false) := by
  obtain ⟨o, hLookup, hTake⟩ := hTakes
  rw [longArg_name q h, hLookup]
  exact if_neg (by rw [take_hasValue hTake]; exact Bool.false_ne_true)

theorem longArg_given {q : Parser V} {text : List Char} (h : '=' ∉ text) {value : String}
    (hTakes : q.Takes (.ofList text, some value)) :
    q.longArg text (some value) = (q.setWith (.ofList text, some value), true) := by
  obtain ⟨o, hLookup, hTake⟩ := hTakes
  rw [longArg_name q h, hLookup]
  exact if_pos (take_hasValue hTake)

/-- The ways in which a long argument is read without a report. -/
theorem longArg_clean {q : Parser V} {text : List Char} {next : Option String}
    (h : (q.longArg text next).1.errors = []) : q.errors = [] ∧
      ((∃ name value, text = name ++ '=' :: value ∧ '=' ∉ name ∧ (q.longArg text next).2 = false ∧
          q.Takes (.ofList name, some (.ofList value))) ∨
        '=' ∉ text ∧
          ((q.longArg text next).2 = false ∧ q.Takes (.ofList text, none) ∨
            (q.longArg text next).2 = true ∧ ∃ value, next = some value ∧
              q.Takes (.ofList text, some value))) := by
  by_cases hEq : '=' ∈ text
  · obtain ⟨name, value, rfl, hName⟩ := List.eq_append_cons_of_mem hEq
    rw [longArg_assign q hName] at h ⊢
    obtain ⟨hClean, hTakes⟩ := setWith_clean.mp h
    exact ⟨hClean, .inl ⟨name, value, rfl, hName, rfl, hTakes⟩⟩
  · rw [longArg_name q hEq] at h ⊢
    cases hLookup : q.options.lookup (String.ofList text) with
    | none =>
      rw [hLookup] at h
      exact absurd h (report_errors_ne_nil q _)
    | some o =>
      simp only [hLookup] at h ⊢
      split at h
      · next hValue =>
        rw [if_pos hValue]
        cases next with
        | none => exact absurd h (report_errors_ne_nil q _)
        | some value =>
          obtain ⟨hClean, hTakes⟩ := setWith_clean.mp h
          exact ⟨hClean, .inr ⟨hEq, .inr ⟨rfl, value, rfl, hTakes⟩⟩⟩
      · next hFlag =>
        rw [if_neg hFlag]
        obtain ⟨hClean, hTakes⟩ := setWith_clean.mp h
        exact ⟨hClean, .inr ⟨hEq, .inl ⟨rfl, hTakes⟩⟩⟩

section Letters

variable {p q : Parser V} {table : List (Char × String)}

theorem shortArg_nil (q : Parser V) (next : Option String) {last : Char} {name : String}
    (h : shortOption table last = .ok name) : shortArg table next q last [] =
      match next, (q.options.lookup name).any OptionBase.hasValue with
      | some value, true => (q.setWith (name, some value), true)
      | _, _ => (q.setWith (name, none), false) := by
  rw [shortArg, h]
  rfl

theorem shortArg_cons (q : Parser V) (next : Option String) (last c : Char) (cs : List Char) :
    shortArg table next q last (c :: cs) =
      match shortOption table last with
      | .error e => shortArg table next (q.report e) c cs
      | .ok name => shortArg table next (q.setWith (name, none)) c cs := rfl

theorem shortArg_flag {last : Char} {name : String} (h : shortOption table last = .ok name)
    (hTakes : q.Takes (name, none)) (next : Option String) :
    shortArg table next q last [] = (q.setWith (name, none), false) := by
  obtain ⟨o, hLookup, hTake⟩ := hTakes
  have hFlag : o.hasValue = false := take_hasValue hTake
  rw [shortArg_nil q next h, hLookup, Option.any_some, hFlag]
  cases next with
  | none => rfl
  | some value => rfl

theorem shortArg_given {last : Char} {name value : String} (h : shortOption table last = .ok name)
    (hTakes : q.Takes (name, some value)) :
    shortArg table (some value) q last [] = (q.setWith (name, some value), true) := by
  obtain ⟨o, hLookup, hTake⟩ := hTakes
  have hValue : o.hasValue = true := take_hasValue hTake
  rw [shortArg_nil q _ h, hLookup, Option.any_some, hValue]

theorem exists_cons_eq_append (flags : List Char) (last : Char) : ∃ c cs, flags ++ [last] = c :: cs := by
  cases flags with
  | nil => exact ⟨last, [], rfl⟩
  | cons f fs => exact ⟨f, fs ++ [last], rfl⟩

/-- The letters before the last one. -/
theorem shortArg_append {long : Char → String} {next : Option String} {flags : List Char} {last c : Char}
    {cs : List Char} (hSplit : c :: cs = flags ++ [last]) (h : ∀ c ∈ flags, shortOption table c = .ok (long c)) :
    shortArg table next q c cs = shortArg table next (q.setAll (flags.map fun c => (long c, none))) last [] := by
  induction flags generalizing q c cs with
  | nil =>
    obtain ⟨rfl, rfl⟩ := List.cons_eq_cons.mp hSplit
    rfl
  | cons f fs ih =>
    obtain ⟨hFirst, hRest⟩ := List.forall_mem_cons.mp h
    obtain ⟨c', cs', hTail⟩ := exists_cons_eq_append fs last
    rw [List.cons_append, hTail] at hSplit
    obtain ⟨rfl, rfl⟩ := List.cons_eq_cons.mp hSplit
    rw [shortArg_cons, hFirst]
    exact ih hTail.symm hRest

/-- The ways in which a cluster of letters is read without a report. -/
theorem shortArg_clean (hTable : shortNames p.options [] = .ok table) {next : Option String} {flags : List Char}
    {last c : Char} {cs : List Char} (hSplit : c :: cs = flags ++ [last]) (hShape : q.shape = p.shape)
    (h : (shortArg table next q c cs).1.errors = []) : q.errors = [] ∧ (∀ l ∈ flags ++ [last], p.long l ≠ "") ∧
      (∀ l ∈ flags, p.Takes (p.long l, none)) ∧
        ((shortArg table next q c cs).2 = false ∧ p.Takes (p.long last, none) ∨
          (shortArg table next q c cs).2 = true ∧ ∃ value, next = some value ∧
            p.Takes (p.long last, some value)) := by
  induction flags generalizing q c cs with
  | nil =>
    obtain ⟨rfl, rfl⟩ := List.cons_eq_cons.mp hSplit
    cases hLetter : shortOption table c with
    | error e =>
      rw [shortArg, hLetter] at h
      exact absurd h (report_errors_ne_nil q e)
    | ok name =>
      obtain ⟨hName, hLong⟩ := (shortOption_ok_iff hTable).mp hLetter
      rw [List.nil_append, List.forall_mem_singleton, hLong]
      rw [shortArg_nil q next hLetter] at h ⊢
      cases next with
      | none =>
        obtain ⟨hClean, hTakes⟩ := setWith_clean.mp h
        exact ⟨hClean, hName, List.forall_mem_nil _, .inl ⟨rfl, (takes_congr hShape _).mp hTakes⟩⟩
      | some value =>
        cases hValue : (q.options.lookup name).any OptionBase.hasValue with
        | false =>
          rw [hValue] at h
          obtain ⟨hClean, hTakes⟩ := setWith_clean.mp h
          exact ⟨hClean, hName, List.forall_mem_nil _, .inl ⟨rfl, (takes_congr hShape _).mp hTakes⟩⟩
        | true =>
          rw [hValue] at h
          obtain ⟨hClean, hTakes⟩ := setWith_clean.mp h
          exact ⟨hClean, hName, List.forall_mem_nil _,
            .inr ⟨rfl, value, rfl, (takes_congr hShape _).mp hTakes⟩⟩
  | cons f fs ih =>
    obtain ⟨c', cs', hTail⟩ := exists_cons_eq_append fs last
    rw [List.cons_append, hTail] at hSplit
    obtain ⟨rfl, rfl⟩ := List.cons_eq_cons.mp hSplit
    cases hLetter : shortOption table c with
    | error e =>
      rw [shortArg_cons, hLetter] at h
      exact absurd (ih (q := q.report e) hTail.symm hShape h).1 (report_errors_ne_nil q e)
    | ok name =>
      obtain ⟨hName, hLong⟩ := (shortOption_ok_iff hTable).mp hLetter
      rw [shortArg_cons, hLetter] at h ⊢
      obtain ⟨hClean, hKnown, hFlags, hLast⟩ := ih hTail.symm ((q.setWith_shape (name, none)).trans hShape) h
      obtain ⟨hBefore, hTakes⟩ := setWith_clean.mp hClean
      rw [takes_congr hShape, ← hLong] at hTakes
      exact ⟨hBefore, List.forall_mem_cons.mpr ⟨hLong ▸ hName, hKnown⟩, List.forall_mem_cons.mpr ⟨hTakes, hFlags⟩,
        hLast⟩

theorem arg_cases (arg : String) : (∃ text, arg.toList = '-' :: '-' :: text) ∨
    (∃ c cs, arg.toList = '-' :: c :: cs ∧ c ≠ '-') ∨ arg = "-" ∨ arg.toList.head? ≠ some '-' := by
  have hDash : arg.toList = ['-'] → arg = "-" := fun h => String.toList_inj.mp h
  cases hArg : arg.toList with
  | nil => exact .inr (.inr (.inr (by simp)))
  | cons first rest =>
    obtain rfl | hFirst := eq_or_ne first '-'
    · cases rest with
      | nil => exact .inr (.inr (.inl (hDash hArg)))
      | cons c cs =>
        obtain rfl | hSecond := eq_or_ne c '-'
        · exact .inl ⟨cs, rfl⟩
        · exact .inr (.inl ⟨c, cs, rfl, hSecond⟩)
    · exact .inr (.inr (.inr (by simpa using hFirst)))

theorem turn_long {arg : String} {text : List Char} (h : arg.toList = '-' :: '-' :: text) (q : Parser V)
    (next : Option String) : turn table q arg next = q.longArg text next := by
  rw [turn, h]
  rfl

theorem turn_short {arg : String} {c : Char} {cs : List Char} (h : arg.toList = '-' :: c :: cs) (hc : c ≠ '-')
    (q : Parser V) (next : Option String) : turn table q arg next = shortArg table next q c cs := by
  rw [turn, h, if_neg (by simpa using hc)]
  rfl

theorem turn_dash (q : Parser V) (next : Option String) : turn table q "-" next = (q, false) := rfl

theorem turn_plain {arg : String} (h : arg.toList.head? ≠ some '-') (q : Parser V) (next : Option String) :
    turn table q arg next = ({ q with others := q.others ++ [arg] }, false) := by
  rw [turn]
  cases hArg : arg.toList with
  | nil => rfl
  | cons first rest =>
    have hFirst : first ≠ '-' := by simpa [hArg] using h
    rw [if_neg (by simp [hFirst]), if_neg (by simp [hFirst])]

theorem longArg_shape (q : Parser V) (text : List Char) (next : Option String) :
    (q.longArg text next).1.shape = q.shape := by
  by_cases hEq : '=' ∈ text
  · obtain ⟨name, value, rfl, hName⟩ := List.eq_append_cons_of_mem hEq
    rw [longArg_assign q hName]
    exact q.setWith_shape _
  · rw [longArg_name q hEq]
    cases q.options.lookup (String.ofList text) with
    | none => rfl
    | some o =>
      dsimp only
      split
      · cases next with
        | none => rfl
        | some value => exact q.setWith_shape _
      · exact q.setWith_shape _

theorem shortArg_shape (q : Parser V) (next : Option String) (last : Char) (cs : List Char) :
    (shortArg table next q last cs).1.shape = q.shape := by
  induction cs generalizing q last with
  | nil =>
    cases hLetter : shortOption table last with
    | error e => rw [shortArg, hLetter]; rfl
    | ok name =>
      rw [shortArg_nil q next hLetter]
      cases next with
      | none => exact q.setWith_shape _
      | some value =>
        cases (q.options.lookup name).any OptionBase.hasValue with
        | false => exact q.setWith_shape _
        | true => exact q.setWith_shape _
  | cons c cs ih =>
    rw [shortArg_cons]
    cases shortOption table last with
    | error e => exact ih (q.report e) c
    | ok name => exact (ih (q.setWith (name, none)) c).trans (q.setWith_shape _)

theorem turn_shape (q : Parser V) (arg : String) (next : Option String) :
    (turn table q arg next).1.shape = q.shape := by
  obtain ⟨text, hArg⟩ | ⟨c, cs, hArg, hc⟩ | rfl | hPlain := arg_cases arg
  · rw [turn_long hArg]
    exact q.longArg_shape text next
  · rw [turn_short hArg hc]
    exact q.shortArg_shape next c cs
  · rfl
  · rw [turn_plain hPlain]
    rfl

/-- The parser after some items, of which none has been reported. -/
def Clean (p q : Parser V) : Prop := q.shape = p.shape ∧ q.errors = []

theorem act_clean {i : Item} (h : i.Fits p) (hq : p.Clean q) : p.Clean (p.act q i) := by
  obtain ⟨hShape, hErrors⟩ := hq
  refine ⟨(q.setAll_shape (i.settings p)).trans hShape, setAll_clean.mpr ⟨hErrors, fun s hs => ?_⟩⟩
  exact (takes_congr hShape s).mpr (h.takes s hs)

/-- A turn that reports nothing has read an item that fits. -/
theorem turn_item (hTable : shortNames p.options [] = .ok table) (hShape : q.shape = p.shape) {arg : String}
    {next : Option String} (h : (turn table q arg next).1.errors = []) : q.errors = [] ∧ ∃ i : Item, i.Fits p ∧
      i.words = arg :: if (turn table q arg next).2 = true then next.toList else [] := by
  obtain ⟨text, hArg⟩ | ⟨c, cs, hArg, hc⟩ | rfl | hPlain := arg_cases arg
  · have hWord : "--" ++ String.ofList text = arg := String.toList_inj.mp (by simp [hArg])
    rw [turn_long hArg] at h ⊢
    obtain ⟨hClean, ⟨name, value, rfl, hName, hOne, hTakes⟩ | ⟨hEq, hFlag | hGiven⟩⟩ := longArg_clean h
    · refine ⟨hClean, .assign (.ofList name) (.ofList value), ⟨?_, List.forall_mem_nil _, ?_⟩, ?_⟩
      · simpa [Item.Spelled] using hName
      · exact List.forall_mem_singleton.mpr ((takes_congr hShape _).mp hTakes)
      · rw [hOne, if_neg Bool.false_ne_true, Item.words, ← hWord]
        exact congrArg (fun w => [w]) (String.toList_inj.mp (by simp))
    · obtain ⟨hOne, hTakes⟩ := hFlag
      refine ⟨hClean, .flag (.ofList text), ⟨?_, List.forall_mem_nil _, ?_⟩, ?_⟩
      · simpa [Item.Spelled] using hEq
      · exact List.forall_mem_singleton.mpr ((takes_congr hShape _).mp hTakes)
      · rw [hOne, if_neg Bool.false_ne_true, Item.words, hWord]
    · obtain ⟨hTwo, value, rfl, hTakes⟩ := hGiven
      refine ⟨hClean, .given (.ofList text) value, ⟨?_, List.forall_mem_nil _, ?_⟩, ?_⟩
      · simpa [Item.Spelled] using hEq
      · exact List.forall_mem_singleton.mpr ((takes_congr hShape _).mp hTakes)
      · rw [hTwo, if_pos rfl, Item.words, hWord]
        rfl
  · obtain ⟨flags, last, hSplit⟩ : ∃ flags last, c :: cs = flags ++ [last] :=
      ⟨_, _, (List.dropLast_append_getLast (List.cons_ne_nil c cs)).symm⟩
    have hWord : String.ofList ('-' :: (flags ++ [last])) = arg := String.toList_inj.mp (by simp [hArg, ← hSplit])
    have hHead : (flags ++ [last]).head? ≠ some '-' := by simpa [← hSplit] using hc
    rw [turn_short hArg hc] at h ⊢
    obtain ⟨hClean, hKnown, hFlags, hLast⟩ := shortArg_clean hTable hSplit hShape h
    have hBefore : ∀ s ∈ flags.map fun l => (p.long l, none), p.Takes s := by
      intro s hs
      obtain ⟨l, hl, rfl⟩ := List.mem_map.mp hs
      exact hFlags l hl
    obtain ⟨hOne, hTakes⟩ | ⟨hTwo, value, rfl, hTakes⟩ := hLast
    · refine ⟨hClean, .cluster flags last, ⟨hHead, hKnown, ?_⟩, ?_⟩
      · exact List.forall_mem_append.mpr ⟨hBefore, List.forall_mem_singleton.mpr hTakes⟩
      · rw [hOne, if_neg Bool.false_ne_true, Item.words, hWord]
    · refine ⟨hClean, .clusterGiven flags last value, ⟨hHead, hKnown, ?_⟩, ?_⟩
      · exact List.forall_mem_append.mpr ⟨hBefore, List.forall_mem_singleton.mpr hTakes⟩
      · rw [hTwo, if_pos rfl, Item.words, hWord]
        rfl
  · exact ⟨h, .dash, ⟨trivial, List.forall_mem_nil _, List.forall_mem_nil _⟩, rfl⟩
  · rw [turn_plain hPlain] at h ⊢
    exact ⟨h, .plain arg, ⟨hPlain, List.forall_mem_nil _, List.forall_mem_nil _⟩, rfl⟩

theorem act_eq_setAll {i : Item} (hNone : i.positional = []) (h : ∀ s ∈ i.settings p, q.Takes s) :
    p.act q i = q.setAll (i.settings p) := by
  ext1
  · rfl
  · change q.others ++ i.positional = _
    rw [hNone, List.append_nil, setAll_others h]
  · rfl

theorem setAll_append (q : Parser V) (xs : List Setting) (s : Setting) :
    q.setAll (xs ++ [s]) = (q.setAll xs).setWith s := List.foldl_append

/-- An item that fits is read as it stands, whatever comes after it. -/
theorem scan_item (hTable : shortNames p.options [] = .ok table) {i : Item} (h : i.Fits p) (hShape : q.shape = p.shape)
    (rest : List String) :
    Lookahead.scan (turn table) q (i.words ++ rest) = Lookahead.scan (turn table) (p.act q i) rest := by
  have hTakes : ∀ s ∈ i.settings p, q.Takes s := fun s hs => (takes_congr hShape s).mpr (h.takes s hs)
  have hLetter : ∀ l ∈ i.letters, shortOption table l = .ok (p.long l) :=
    fun l hl => (shortOption_ok_iff hTable).mpr ⟨h.known l hl, rfl⟩
  cases i with
  | assign name value =>
    have hArg : ("--" ++ name ++ "=" ++ value).toList = '-' :: '-' :: (name.toList ++ '=' :: value.toList) := by simp
    rw [act_eq_setAll rfl hTakes]
    refine Lookahead.scan_cons_one (fun next => ?_) rest
    rw [turn_long hArg, longArg_assign q h.spelled, String.ofList_toList, String.ofList_toList]
    rfl
  | given name value =>
    have hArg : ("--" ++ name).toList = '-' :: '-' :: name.toList := by simp
    have hGiven : q.Takes (.ofList name.toList, some value) := by
      rw [String.ofList_toList]
      exact hTakes _ (List.mem_singleton_self _)
    rw [act_eq_setAll rfl hTakes]
    refine Lookahead.scan_cons_two ?_ rest
    rw [turn_long hArg, longArg_given h.spelled hGiven, String.ofList_toList]
    rfl
  | flag name =>
    have hArg : ("--" ++ name).toList = '-' :: '-' :: name.toList := by simp
    have hFlag : q.Takes (.ofList name.toList, none) := by
      rw [String.ofList_toList]
      exact hTakes _ (List.mem_singleton_self _)
    rw [act_eq_setAll rfl hTakes]
    refine Lookahead.scan_cons_one (fun next => ?_) rest
    rw [turn_long hArg, longArg_flag h.spelled hFlag, String.ofList_toList]
    rfl
  | cluster flags last =>
    obtain ⟨hBefore, hLast⟩ := List.forall_mem_append.mp hLetter
    obtain ⟨c, cs, hSplit⟩ := exists_cons_eq_append flags last
    have hArg : (String.ofList ('-' :: (flags ++ [last]))).toList = '-' :: c :: cs := by simp [hSplit]
    have hc : c ≠ '-' := by simpa [Item.Spelled, hSplit] using h.spelled
    have hFlag : (q.setAll (flags.map fun l => (p.long l, none))).Takes (p.long last, none) :=
      (takes_congr (q.setAll_shape _) _).mpr (hTakes _ (List.mem_append_right _ (List.mem_singleton_self _)))
    rw [act_eq_setAll rfl hTakes, Item.settings, setAll_append]
    refine Lookahead.scan_cons_one (fun next => ?_) rest
    rw [turn_short hArg hc, shortArg_append hSplit.symm hBefore,
      shortArg_flag (hLast last (List.mem_singleton_self last)) hFlag]
  | clusterGiven flags last value =>
    obtain ⟨hBefore, hLast⟩ := List.forall_mem_append.mp hLetter
    obtain ⟨c, cs, hSplit⟩ := exists_cons_eq_append flags last
    have hArg : (String.ofList ('-' :: (flags ++ [last]))).toList = '-' :: c :: cs := by simp [hSplit]
    have hc : c ≠ '-' := by simpa [Item.Spelled, hSplit] using h.spelled
    have hGiven : (q.setAll (flags.map fun l => (p.long l, none))).Takes (p.long last, some value) :=
      (takes_congr (q.setAll_shape _) _).mpr (hTakes _ (List.mem_append_right _ (List.mem_singleton_self _)))
    rw [act_eq_setAll rfl hTakes, Item.settings, setAll_append]
    refine Lookahead.scan_cons_two ?_ rest
    rw [turn_short hArg hc, shortArg_append hSplit.symm hBefore,
      shortArg_given (hLast last (List.mem_singleton_self last)) hGiven]
  | dash =>
    rw [act_eq_setAll rfl hTakes]
    exact Lookahead.scan_cons_one (fun next => turn_dash q next) rest
  | plain word => exact Lookahead.scan_cons_one (fun next => turn_plain h.spelled q next) rest

theorem reads (hTable : shortNames p.options [] = .ok table) :
    Lookahead.Reads (turn table) p.Clean Item.words (Item.Fits p) p.act where
  faults := by
    rintro q arg next ⟨hShape, hClean⟩
    rw [turn_shape] at hShape
    exact ⟨hShape, (turn_item hTable hShape hClean).1⟩
  item := by
    rintro q arg next ⟨hShape, hClean⟩
    rw [turn_shape] at hShape
    exact (turn_item hTable hShape hClean).2
  act_good := fun hClean hFits => act_clean hFits hClean
  scan_item := fun hClean hFits rest => scan_item hTable hFits hClean.1 rest

end Letters

theorem foldl_act {p q : Parser V} {items : List Item} (h : ∀ i ∈ items, i.Fits p) (hq : p.Clean q) :
    (items.foldl p.act q).options =
        q.options.map (fun e => (e.1, e.2.after (textsOf (items.flatMap (Item.settings p)) e.1))) ∧
      (items.foldl p.act q).others = q.others ++ items.flatMap Item.positional := by
  induction items generalizing q with
  | nil =>
    constructor
    · conv_lhs => rw [List.foldl_nil, ← List.map_id q.options]
      apply List.map_congr_left
      intro e he
      exact congrArg (e.1, ·) e.2.after_nil.symm
    · exact (List.append_nil _).symm
  | cons i items ih =>
    obtain ⟨hFirst, hRest⟩ := List.forall_mem_cons.mp h
    obtain ⟨hOptions, hOthers⟩ := ih hRest (act_clean hFirst hq)
    have hTakes : ∀ s ∈ i.settings p, q.Takes s := fun s hs => (takes_congr hq.1 s).mpr (hFirst.takes s hs)
    have hAct : (p.act q i).options = q.options.map fun e => (e.1, e.2.after (textsOf (i.settings p) e.1)) :=
      setAll_options hTakes
    constructor
    · rw [List.foldl_cons, hOptions, hAct, List.map_map]
      apply List.map_congr_left
      intro e he
      rw [List.flatMap_cons, textsOf_append, OptionBase.after_append]
      rfl
    · rw [List.foldl_cons, hOthers, List.flatMap_cons]
      exact List.append_assoc q.others i.positional _

theorem checkNeeded_eq (p : Parser V) : ∃ es, p.checkNeeded = { p with errors := p.errors ++ es } ∧
    (es = [] ↔ ∀ e ∈ p.options, e.2.valid = true) := by
  have hFold : ∀ (entries : List (String × OptionBase V)) (q : Parser V), ∃ es,
      entries.foldl (fun q e => if e.2.valid = true then q else q.report ("need option: --" ++ e.1)) q =
        { q with errors := q.errors ++ es } ∧ (es = [] ↔ ∀ e ∈ entries, e.2.valid = true) := by
    intro entries
    induction entries with
    | nil => exact fun q => ⟨[], by simp, by simp⟩
    | cons e entries ih =>
      intro q
      rw [List.foldl_cons, List.forall_mem_cons]
      split
      · next hValid =>
        obtain ⟨es, hEq, hEs⟩ := ih q
        exact ⟨es, hEq, hEs.trans (and_iff_right hValid).symm⟩
      · next hNot =>
        obtain ⟨es, hEq, -⟩ := ih (q.report ("need option: --" ++ e.1))
        refine ⟨("need option: --" ++ e.1) :: es, ?_, iff_of_false (List.cons_ne_nil _ _) fun h => hNot h.1⟩
        rw [hEq, report]
        simp
  exact hFold p.options p

theorem checkNeeded_clean {p : Parser V} : p.checkNeeded.errors = [] ↔
    p.errors = [] ∧ ∀ e ∈ p.options, e.2.valid = true := by
  obtain ⟨es, hEq, hEs⟩ := p.checkNeeded_eq
  rw [hEq, List.append_eq_nil_iff, hEs]

theorem checkNeeded_of_valid {p : Parser V} (h : ∀ e ∈ p.options, e.2.valid = true) : p.checkNeeded = p := by
  obtain ⟨es, hEq, hEs⟩ := p.checkNeeded_eq
  rw [hEq, hEs.mpr h, List.append_nil]

/-- The options that are needed, before the parse or by the items. -/
def Complete (p : Parser V) (items : List Item) : Prop :=
  ∀ e ∈ p.options, e.2.valid = true ∨ ∃ i ∈ items, ∃ s ∈ i.settings p, s.1 = e.1

theorem complete_iff {p q : Parser V} {items : List Item} (h : q.options =
    p.options.map fun e => (e.1, e.2.after (textsOf (items.flatMap (Item.settings p)) e.1))) :
    (∀ e ∈ q.options, e.2.valid = true) ↔ p.Complete items := by
  rw [h, List.forall_mem_map]
  apply forall₂_congr
  intro e he
  rw [OptionBase.valid_after, Bool.or_eq_true, textsOf_nonempty]
  simp only [List.mem_flatMap]
  apply or_congr_right
  constructor
  · rintro ⟨s, ⟨i, hi, hs⟩, hName⟩
    exact ⟨i, hi, s, hs, hName⟩
  · rintro ⟨i, hi, s, hs, hName⟩
    exact ⟨s, ⟨i, hi, hs⟩, hName⟩

theorem clear_clean (p : Parser V) : p.Clean p.clear := ⟨rfl, rfl⟩

theorem parse_iff_items (p q : Parser V) (argv : List String) : p.parse argv = (q, true) ↔
    p.Unambiguous ∧ ∃ prog, ∃ items : List Item, argv = prog :: items.flatMap Item.words ∧ (∀ i ∈ items, i.Fits p) ∧
      p.Complete items ∧ q = items.foldl p.act p.clear := by
  cases argv with
  | nil =>
    apply iff_of_false
    · exact fun h => Bool.false_ne_true (congrArg Prod.snd h)
    · rintro ⟨-, prog, items, ⟨⟩, -⟩
  | cons prog args =>
    rw [unambiguous_iff]
    cases hTable : shortNames p.options [] with
    | error initial =>
      rw [parse, hTable]
      apply iff_of_false
      · exact fun h => Bool.false_ne_true (congrArg Prod.snd h)
      · rintro ⟨⟨table, ⟨⟩⟩, -⟩
    | ok table =>
      rw [parse, hTable, and_iff_right ⟨table, rfl⟩]
      have hShape : (Lookahead.scan (turn table) p.clear args).shape = p.shape :=
        Lookahead.scan_invariant (fun q arg next hq => (turn_shape q arg next).trans hq) rfl args
      simp only [Prod.mk.injEq, decide_eq_true_eq]
      constructor
      · rintro ⟨rfl, hClean⟩
        obtain ⟨hErrors, hValid⟩ := checkNeeded_clean.mp hClean
        obtain ⟨items, rfl, hFits, hEnd⟩ := ((reads hTable).good_iff p.clear_clean args _).mp ⟨rfl, hShape, hErrors⟩
        rw [checkNeeded_of_valid hValid]
        rw [hEnd] at hValid
        exact ⟨prog, items, rfl, hFits, (complete_iff (foldl_act hFits p.clear_clean).1).mp hValid, hEnd⟩
      · rintro ⟨prog', items, hArgs, hFits, hComplete, rfl⟩
        obtain ⟨rfl, rfl⟩ := List.cons_eq_cons.mp hArgs
        have hEnd := (reads hTable).scan_items p.clear_clean hFits
        have hValid := (complete_iff (foldl_act hFits p.clear_clean).1).mpr hComplete
        have hClean := (reads hTable).foldl_good p.clear_clean hFits
        rw [hEnd, checkNeeded_of_valid hValid]
        exact ⟨rfl, hClean.2⟩

/-- The command line is accepted just where no two options have one letter, the arguments are the words of items
that fit the options and every option that is needed has been set, by one of them or earlier. Each option then has
the last text for it, and the other arguments stand in their order. -/
theorem parse_accepts_iff (p q : Parser V) (argv : List String) : p.parse argv = (q, true) ↔
    p.Unambiguous ∧ ∃ prog, ∃ items : List Item, argv = prog :: items.flatMap Item.words ∧ (∀ i ∈ items, i.Fits p) ∧
      p.Complete items ∧
      q.options = (p.options.map fun e => (e.1, e.2.after (textsOf (items.flatMap (Item.settings p)) e.1))) ∧
      q.others = items.flatMap Item.positional ∧ q.errors = [] := by
  rw [parse_iff_items]
  apply and_congr_right
  intro hUnambiguous
  obtain ⟨table, hTable⟩ := p.unambiguous_iff.mp hUnambiguous
  apply exists_congr
  intro prog
  apply exists_congr
  intro items
  apply and_congr_right
  rintro -
  apply and_congr_right
  intro hFits
  apply and_congr_right
  rintro -
  obtain ⟨hOptions, hOthers⟩ := foldl_act hFits p.clear_clean
  obtain ⟨-, hErrors⟩ := (reads hTable).foldl_good p.clear_clean hFits
  rw [Parser.ext_iff, hOptions, hOthers, hErrors]
  rfl

end Parser
end Cmdline
end Myframe
