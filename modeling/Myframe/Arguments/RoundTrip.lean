import Myframe.Arguments
import Mathlib.Tactic.SplitIfs

/-! # Saving arguments and loading them back

The file holds the last entry of each key, whatever its type; the scan wants the last entry of a key that has the
type of the setting.
-/
namespace Myframe
set_option autoImplicit false

inductive Setter where
  | str (key value : String)
  | int (key : String) (value : Int32)

namespace Arguments

def set (args : Arguments) : Setter → Arguments
  | .str key value => args.setStr key value
  | .int key value => args.setInt key value

def build (setters : List Setter) : Arguments := setters.foldl set []

/-- The setting keeps its value: the last entry of the key has the type, or else the last one that has it carries
the value that stands for no entry. -/
def Keeps (args : Arguments) (key : String) (type : ArgType) (isDefault : Argument → Prop) : Prop :=
  (∃ a, (args.filter fun a => a.key = key).getLast? = some a ∧ a.type = type) ∨
    ∀ a, ((args.filter fun a => a.key = key).filter fun a => a.type = type).getLast? = some a → isDefault a

/-- There is an entry, and each setting keeps its value. -/
structure Survives (o : Files) (args : Arguments) : Prop where
  nonempty : args ≠ []
  libDir : args.Keeps argKeyServiceLibDir .kArgString fun a => o.absolutePath a.valueStr = o.absolutePath "lib"
  threadPoolSize : args.Keeps argKeyThreadPoolSize .kArgInteger fun a => a.valueInt = 4
  eventConnSize : args.Keeps argKeyEventConneSize .kArgInteger fun a => a.valueInt = 2
  warningMsgSize : args.Keeps argKeyWarningMsgSize .kArgInteger fun a => a.valueInt = 10
  defaultPendingQueueSize : args.Keeps argKeyPendingQueueSize .kArgInteger fun a => a.valueInt = -1
  defaultRunQueueSize : args.Keeps argKeyRunQueueSize .kArgInteger fun a => a.valueInt = 2

end Arguments

theorem foldl_last {σ α β : Type} {step : σ → α → σ} {read : σ → β} {p : α → Bool} {value : α → β}
    (hStep : ∀ s a, read (step s a) = if p a then value a else read s) (s : σ) (xs : List α) :
    read (xs.foldl step s) = ((xs.filter p).getLast?.map value).getD (read s) := by
  induction xs generalizing s with
  | nil => rfl
  | cons a xs ih =>
    rw [List.foldl_cons, ih, hStep, List.filter_cons]
    split
    · rw [List.getLast?_cons]
      cases (xs.filter p).getLast? with
      | none => rfl
      | some b => rfl
    · rfl

/-- Taking the last element first and filtering then, against filtering first. -/
theorem last_filter_iff {α β : Type} (xs : List α) (p : α → Bool) (value : α → β) (dflt : β) :
    ((xs.getLast?.toList.filter p).getLast?.map value).getD dflt = ((xs.filter p).getLast?.map value).getD dflt ↔
      (∃ a, xs.getLast? = some a ∧ p a = true) ∨ ∀ a, (xs.filter p).getLast? = some a → value a = dflt := by
  obtain rfl | ⟨ys, b, rfl⟩ := List.eq_nil_or_concat' xs
  · simp
  · rw [List.getLast?_concat, List.filter_append]
    cases hp : p b with
    | true => simp [hp]
    | false =>
      cases hLast : (ys.filter p).getLast? with
      | none => simp [hp, hLast]
      | some a =>
        simp only [hp, hLast, List.filter_cons, Bool.false_eq_true, if_false, List.filter_nil, List.append_nil,
          Option.toList_some, List.getLast?_nil, Option.map_none, Option.map_some, Option.getD_none, Option.getD_some,
          Option.some.injEq, exists_eq_left', false_or, forall_eq']
        exact eq_comm

namespace Settings

theorem scanArg_libDir (s : Settings) (a : Argument) : (s.scanArg a).libDir =
    if a.key = argKeyServiceLibDir ∧ a.type = .kArgString then a.valueStr else s.libDir := by
  cases h : a.type <;> simp [scanArg, h, apply_ite libDir]

theorem scanArg_threadPoolSize (s : Settings) (a : Argument) : (s.scanArg a).threadPoolSize =
    if a.key = argKeyThreadPoolSize ∧ a.type = .kArgInteger then a.valueInt else s.threadPoolSize := by
  cases h : a.type <;> simp [scanArg, h, apply_ite threadPoolSize]

theorem scanArg_warningMsgSize (s : Settings) (a : Argument) : (s.scanArg a).warningMsgSize =
    if a.key = argKeyWarningMsgSize ∧ a.type = .kArgInteger then a.valueInt else s.warningMsgSize := by
  cases h : a.type <;> simp [scanArg, h, apply_ite warningMsgSize]

theorem scanArg_defaultPendingQueueSize (s : Settings) (a : Argument) : (s.scanArg a).defaultPendingQueueSize =
    if a.key = argKeyPendingQueueSize ∧ a.type = .kArgInteger then a.valueInt else s.defaultPendingQueueSize := by
  cases h : a.type <;> simp [scanArg, h, apply_ite defaultPendingQueueSize]

theorem scanArg_defaultRunQueueSize (s : Settings) (a : Argument) : (s.scanArg a).defaultRunQueueSize =
    if a.key = argKeyRunQueueSize ∧ a.type = .kArgInteger then a.valueInt else s.defaultRunQueueSize := by
  cases h : a.type <;> simp [scanArg, h, apply_ite defaultRunQueueSize]

theorem scanArg_eventConnSize (s : Settings) (a : Argument) : (s.scanArg a).eventConnSize =
    if a.key = argKeyEventConneSize ∧ a.type = .kArgInteger then a.valueInt else s.eventConnSize := by
  cases h : a.type <;> simp [scanArg, h, apply_ite eventConnSize]

theorem scan_eq {β : Type} {read : Settings → β} {value : Argument → β} {key : String} {type : ArgType}
    (hStep : ∀ s a, read (scanArg s a) = if a.key = key ∧ a.type = type then value a else read s) (args : Arguments) :
    read (args.foldl scanArg {}) =
      (((args.filter fun a => a.key = key).filter fun a => a.type = type).getLast?.map value).getD (read {}) := by
  have hStep : ∀ s a, read (scanArg s a) =
      if (decide (a.type = type) && decide (a.key = key)) = true then value a else read s := by
    intro s a
    rw [hStep]
    simp [and_comm]
  rw [List.filter_filter]
  exact foldl_last hStep {} args

end Settings

namespace Arguments

/-- Between a list and another one that has the last entry of each key: when a setting is read alike. -/
theorem keeps_iff {β : Type} {read : Settings → β} {value : Argument → β} {key : String} {type : ArgType}
    (hStep : ∀ s a, read (Settings.scanArg s a) = if a.key = key ∧ a.type = type then value a else read s)
    {args loaded : Arguments} (h : (loaded.filter fun a => a.key = key) =
      (args.filter fun a => a.key = key).getLast?.toList) :
    read (loaded.foldl Settings.scanArg {}) = read (args.foldl Settings.scanArg {}) ↔
      args.Keeps key type fun a => value a = read {} := by
  rw [Settings.scan_eq hStep, Settings.scan_eq hStep, h, last_filter_iff]
  simp [Keeps]

theorem ofArguments_eq_iff (o : Files) {args loaded : Arguments} (hSome : args ≠ []) (h : ∀ key,
    (loaded.filter fun a => a.key = key) = (args.filter fun a => a.key = key).getLast?.toList) :
    Settings.ofArguments o loaded = Settings.ofArguments o args ↔ args.Survives o := by
  have hLibDir : ∀ s a, o.absolutePath (Settings.scanArg s a).libDir =
      if a.key = argKeyServiceLibDir ∧ a.type = .kArgString then o.absolutePath a.valueStr
      else o.absolutePath s.libDir := by
    intro s a
    rw [Settings.scanArg_libDir, apply_ite o.absolutePath]
  have hDir :=
    @keeps_iff _ (fun s => o.absolutePath s.libDir) (fun a => o.absolutePath a.valueStr) _ _ hLibDir _ _ (h _)
  have hPool := keeps_iff Settings.scanArg_threadPoolSize (h _)
  have hConn := keeps_iff Settings.scanArg_eventConnSize (h _)
  have hWarning := keeps_iff Settings.scanArg_warningMsgSize (h _)
  have hPending := keeps_iff Settings.scanArg_defaultPendingQueueSize (h _)
  have hRun := keeps_iff Settings.scanArg_defaultRunQueueSize (h _)
  rw [Settings.ext_iff]
  constructor
  · rintro ⟨h1, h2, h3, h4, h5, h6⟩
    exact ⟨hSome, hDir.mp h1, hPool.mp h2, hConn.mp h3, hWarning.mp h4, hPending.mp h5, hRun.mp h6⟩
  · intro hKeeps
    exact ⟨hDir.mpr hKeeps.libDir, hPool.mpr hKeeps.threadPoolSize, hConn.mpr hKeeps.eventConnSize,
      hWarning.mpr hKeeps.warningMsgSize, hPending.mpr hKeeps.defaultPendingQueueSize,
      hRun.mpr hKeeps.defaultRunQueueSize⟩

def Made (a : Argument) : Prop :=
  (∃ key value, a = { type := .kArgString, key := key, valueStr := value }) ∨
    ∃ key value, a = { type := .kArgInteger, key := key, valueInt := value }

theorem made_build (setters : List Setter) : ∀ a ∈ build setters, Made a := by
  have hFold : ∀ args : Arguments, (∀ a ∈ args, Made a) → ∀ a ∈ setters.foldl set args, Made a := by
    induction setters with
    | nil => exact fun _ h => h
    | cons setter setters ih =>
      intro args h
      apply ih
      cases setter with
      | str key value => exact List.forall_mem_append.mpr ⟨h, List.forall_mem_singleton.mpr (.inl ⟨key, value, rfl⟩)⟩
      | int key value => exact List.forall_mem_append.mpr ⟨h, List.forall_mem_singleton.mpr (.inr ⟨key, value, rfl⟩)⟩
  exact hFold [] fun _ h => absurd h List.not_mem_nil

def member (a : Argument) : String × Json :=
  (a.key, if a.type = .kArgInteger then .int a.valueInt.toInt else .string a.valueStr)

def members (args : Arguments) : List (String × Json) :=
  (args.map member).foldl (fun acc e => SortedMap.put e.1 e.2 acc) []

/-- What a list of members is as a value that has begun as null. -/
def root (members : List (String × Json)) : Json := if members = [] then .null else .object members

theorem saveArg_root {a : Argument} (h : Made a) (members : List (String × Json)) :
    saveArg (root members) a = .ok (root (SortedMap.put (member a).1 (member a).2 members)) := by
  have hSet : ∀ key v, (root members).set key v = .ok (root (SortedMap.put key v members)) := by
    intro key v
    rw [root, root, if_neg (SortedMap.put_ne_nil key v members)]
    split
    · next hNil => rw [hNil]; rfl
    · rfl
  obtain ⟨key, value, rfl⟩ | ⟨key, value, rfl⟩ := h
  · simp [saveArg, member, hSet]
  · simp [saveArg, member, hSet]

theorem saveRoot_eq {args : Arguments} (h : ∀ a ∈ args, Made a) : args.saveRoot = .ok (root args.members) := by
  have hFold : ∀ entries, args.foldlM saveArg (root entries) =
      .ok (root ((args.map member).foldl (fun acc e => SortedMap.put e.1 e.2 acc) entries)) := by
    induction args with
    | nil => exact fun _ => rfl
    | cons a args ih =>
      intro entries
      obtain ⟨hFirst, hRest⟩ := List.forall_mem_cons.mp h
      rw [List.foldlM_cons, saveArg_root hFirst]
      exact ih hRest _
  exact hFold []

def ofMember (e : String × Json) : Argument :=
  match e.2 with
  | .int n => { type := .kArgInteger, key := e.1, valueInt := .ofInt n }
  | .string value => { type := .kArgString, key := e.1, valueStr := value }
  | _ => { type := .kArgNull, key := e.1 }

theorem ofMember_key (e : String × Json) : (ofMember e).key = e.1 := by
  rw [ofMember]
  split
  · rfl
  · rfl
  · rfl

theorem ofMember_member {a : Argument} (h : Made a) : ofMember (member a) = a := by
  obtain ⟨key, value, rfl⟩ | ⟨key, value, rfl⟩ := h
  · rfl
  · simp [member, ofMember]

theorem toInt_inRange (n : Int32) : Json.minInt ≤ n.toInt ∧ n.toInt ≤ Json.maxInt :=
  ⟨n.le_toInt, Int.le_sub_one_of_lt n.toInt_lt⟩

theorem loadArg_member (showReal : ℚ → String) {entries : List (String × Json)} {a : Argument} (h : Made a)
    (hLookup : entries.lookup a.key = some (member a).2) (acc : Arguments) :
    loadArg showReal (.object entries) acc a.key = .ok (acc ++ [a]) := by
  have hGet : (Json.object entries).get a.key = .ok (member a).2 := by
    rw [Json.get, hLookup]
    rfl
  rw [loadArg, hGet]
  obtain ⟨key, value, rfl⟩ | ⟨key, value, rfl⟩ := h
  · rfl
  · have hRange := toInt_inRange value
    change (if (decide _ && decide _) = true then _ else _) = _
    rw [if_pos (by simpa using hRange), member, if_pos rfl, Json.asInt, if_pos hRange]
    simp [Bind.bind, Except.bind, Pure.pure, Except.pure]

theorem foldlM_loadArg (showReal : ℚ → String) {entries rest : List (String × Json)}
    (hSorted : SortedMap.Sorted entries) (hRest : ∀ e ∈ rest, e ∈ entries ∧ ∃ a, Made a ∧ e = member a)
    (acc : Arguments) :
    (rest.map Prod.fst).foldlM (loadArg showReal (.object entries)) acc = .ok (acc ++ rest.map ofMember) := by
  induction rest generalizing acc with
  | nil => rw [List.map_nil, List.map_nil, List.append_nil]; rfl
  | cons e rest ih =>
    obtain ⟨⟨hMem, a, hMade, rfl⟩, hLater⟩ := List.forall_mem_cons.mp hRest
    have hLookup : entries.lookup a.key = some (member a).2 := hSorted.lookup_of_mem hMem
    rw [List.map_cons, List.foldlM_cons]
    change loadArg showReal (.object entries) acc a.key >>= _ = _
    rw [loadArg_member showReal hMade hLookup, List.map_cons, ofMember_member hMade]
    have hTail := ih hLater (acc ++ [a])
    rw [List.append_assoc] at hTail
    exact hTail

section Load

variable {o : Files} {args : Arguments}

theorem members_sorted (args : Arguments) : SortedMap.Sorted args.members :=
  SortedMap.sorted_foldl_put _ List.Pairwise.nil

theorem mem_members {e : String × Json} (h : e ∈ args.members) : ∃ a ∈ args, e = member a := by
  obtain hNew | hNone := SortedMap.mem_foldl_put h
  · obtain ⟨a, ha, rfl⟩ := List.mem_map.mp hNew
    exact ⟨a, ha, rfl⟩
  · exact absurd hNone List.not_mem_nil

theorem members_eq_nil : args.members = [] ↔ args = [] := by
  constructor
  · intro h
    obtain rfl | ⟨before, a, rfl⟩ := List.eq_nil_or_concat' args
    · rfl
    · rw [members, List.map_append, List.foldl_append] at h
      exact absurd h (SortedMap.put_ne_nil _ _ _)
  · rintro rfl
    rfl

/-- The members hold the last argument of each key. -/
theorem lookup_members (args : Arguments) (key : String) :
    args.members.lookup key = (args.filter fun a => a.key = key).getLast?.map fun a => (member a).2 := by
  have hKeys : ((args.map member).filter fun e => e.1 = key) = (args.filter fun a => a.key = key).map member :=
    List.filter_map
  rw [members, SortedMap.lookup_foldl_put, hKeys, List.getLast?_map, Option.map_map, List.lookup_nil, Option.or_none]
  rfl

theorem filter_loaded (hMade : ∀ a ∈ args, Made a) (key : String) :
    ((args.members.map ofMember).filter fun a => a.key = key) =
      (args.filter fun a => a.key = key).getLast?.toList := by
  have hKeys : ((args.members.map ofMember).filter fun a => a.key = key) =
      (args.members.filter fun e => e.1 = key).map ofMember := by
    rw [List.filter_map]
    congr 2
    funext e
    rw [Function.comp, ofMember_key]
  rw [hKeys, (members_sorted args).filter_key, lookup_members]
  cases hLast : (args.filter fun a => a.key = key).getLast? with
  | none => rfl
  | some a =>
    obtain ⟨hMem, hKey⟩ := List.mem_filter.mp (List.mem_of_getLast? hLast)
    have hEq : (key, (member a).2) = member a := by rw [← of_decide_eq_true hKey]; rfl
    simp only [Option.map_some, Option.toList_some, List.map_cons, List.map_nil, hEq, ofMember_member (hMade a hMem)]

theorem load_saved (showReal : ℚ → String) {disk : Disk} {filepath : String} (hMade : ∀ a ∈ args, Made a)
    (hFile : disk filepath = some (o.toStyledString (root args.members)))
    (hNull : o.parse (o.toStyledString .null) = none)
    (hObject : args ≠ [] → o.parse (o.toStyledString (root args.members)) = some (root args.members)) :
    load o showReal disk [] filepath = .ok (args.members.map ofMember, decide (args ≠ [])) := by
  rw [load, Common.loadJsonFromFile, hFile, Option.bind_some]
  by_cases hSome : args = []
  · subst hSome
    change (if ((o.parse (o.toStyledString .null)).getD .null).isNull = true then _ else _) = _
    rw [hNull]
    rfl
  · have hMembers : root args.members = .object args.members := if_neg (members_eq_nil.not.mpr hSome)
    have hLoad := @foldlM_loadArg showReal args.members args.members (members_sorted args)
      (fun e he => ⟨he, (mem_members he).imp fun a ha => ⟨hMade a ha.1, ha.2⟩⟩) []
    rw [hObject hSome, hMembers]
    change ((args.members.map Prod.fst).foldlM (loadArg showReal (.object args.members)) [] >>= _) = _
    rw [hLoad]
    simp [hSome, Bind.bind, Except.bind, Pure.pure, Except.pure]

end Load

/-- Loading gives the configuration back that was saved just where there is an argument and no setting has lost its
value to a later argument of another type. -/
theorem load_save_iff (o : Files) (showReal : ℚ → String) (setters : List Setter) (disk disk' : Disk)
    (filepath : String)
    (hKept : ∀ disk filepath data, (o.write disk filepath data).2 = true →
      (o.write disk filepath data).1 filepath = some data)
    (hNull : o.parse (o.toStyledString .null) = none)
    (hObject : ∀ v, (build setters).saveRoot = .ok v → v ≠ .null → o.parse (o.toStyledString v) = some v)
    (hSave : save o disk (build setters) filepath = .ok (disk', true)) :
    (∃ loaded, load o showReal disk' [] filepath = .ok (loaded, true) ∧
        Settings.ofArguments o loaded = Settings.ofArguments o (build setters)) ↔
      (build setters).Survives o := by
  have hMade := made_build setters
  have hRoot := saveRoot_eq hMade
  have hFile : disk' filepath = some (o.toStyledString (root (build setters).members)) := by
    rw [save, hRoot] at hSave
    have hWrite : o.write disk filepath (o.toStyledString (root (build setters).members)) = (disk', true) :=
      Except.ok.inj hSave
    have hContent := hKept disk filepath (o.toStyledString (root (build setters).members)) (by rw [hWrite])
    rwa [hWrite] at hContent
  have hLoad := load_saved showReal hMade hFile hNull fun hSome => hObject _ hRoot (by
    rw [root, if_neg (members_eq_nil.not.mpr hSome)]
    exact Json.noConfusion)
  rw [hLoad]
  constructor
  · rintro ⟨loaded, hEq, hSame⟩
    obtain ⟨rfl, hSome⟩ := Prod.mk.inj (Except.ok.inj hEq)
    exact (ofArguments_eq_iff o (of_decide_eq_true hSome) (filter_loaded hMade)).mp hSame
  · intro hSurvives
    refine ⟨_, by rw [decide_eq_true hSurvives.nonempty], ?_⟩
    exact (ofArguments_eq_iff o hSurvives.nonempty (filter_loaded hMade)).mpr hSurvives

/-- The files of an application that saves the value `v` as `text`. -/
def filesOf (v : Json) (text : String) : Files where
  toStyledString u := if u.isNull then "null\n" else text
  parse t := if t = text then some v else none
  write disk filepath data := (Function.update disk filepath (some data), true)
  workRoot := "/app"

def twoSetters : List Setter := [.str argKeyServiceLibDir "plugins", .int argKeyThreadPoolSize 8]

def twoFiles : Files :=
  filesOf (.object [("app.lib_dir", .string "plugins"), ("app.thread_pool_size", .int 8)])
    "\x7b\n\t\"app.lib_dir\" : \"plugins\",\n\t\"app.thread_pool_size\" : 8\n\x7d\n"

theorem load_save_iff_two :
    (∃ loaded, load twoFiles (fun _ => "") (twoFiles.write (fun _ => none) "args.json"
          "\x7b\n\t\"app.lib_dir\" : \"plugins\",\n\t\"app.thread_pool_size\" : 8\n\x7d\n").1 [] "args.json" =
          .ok (loaded, true) ∧
        Settings.ofArguments twoFiles loaded = Settings.ofArguments twoFiles (build twoSetters)) ↔
      (build twoSetters).Survives twoFiles := by
  have hRoot : (build twoSetters).saveRoot =
      .ok (.object [("app.lib_dir", .string "plugins"), ("app.thread_pool_size", .int 8)]) := rfl
  refine load_save_iff twoFiles (fun _ => "") twoSetters (fun _ => none) _ "args.json" (fun disk filepath data _ => ?_)
    (by decide) (fun v hv hNe => ?_) rfl
  · exact Function.update_self filepath (some data) disk
  · rw [hRoot] at hv
    rw [← Except.ok.inj hv]
    rfl

def lostSetters : List Setter := [.str argKeyServiceLibDir "plugins", .int argKeyServiceLibDir 3]

def lostFiles : Files :=
  filesOf (.object [("app.lib_dir", .int 3)]) "\x7b\n\t\"app.lib_dir\" : 3\n\x7d\n"

/-- The empty list is not loaded, and a string before a number of the same key is lost. -/
theorem load_save_lost :
    (∃ disk, save lostFiles (fun _ => none) (build []) "args.json" = .ok (disk, true) ∧
        load lostFiles (fun _ => "") disk [] "args.json" = .ok ([], false)) ∧
      ∃ disk loaded, save lostFiles (fun _ => none) (build lostSetters) "args.json" = .ok (disk, true) ∧
        load lostFiles (fun _ => "") disk [] "args.json" = .ok (loaded, true) ∧
        (Settings.ofArguments lostFiles loaded).libDir = "/app/lib" ∧
        (Settings.ofArguments lostFiles (build lostSetters)).libDir = "/app/plugins" := by
  constructor
  · exact ⟨_, rfl, rfl⟩
  · exact ⟨_, _, rfl, rfl, by decide, by decide⟩

end Arguments
end Myframe
