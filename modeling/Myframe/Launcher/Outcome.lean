import Myframe.Launcher.Accepts
import Myframe.Launcher.ModuleArgument

/-! # How the launcher starts

It stops before `Init` with an exit of its own, or hands on its settings: each from the command line, or else from
the configuration file, or else what has been built in.
-/
namespace Myframe
set_option autoImplicit false

namespace Json

def intAt (root : Json) (key : String) : Option ℤ :=
  (root.member key).bind fun v => if v.isInt = true then v.asInt.toOption else none

def stringAt (root : Json) (key : String) : Option String :=
  (root.member key).bind fun v => if let string s := v then some s else none

theorem asInt_of_isInt {v : Json} (h : v.isInt = true) : ∃ n, v.asInt = .ok n := by
  rw [asInt_ok_iff]
  cases v with
  | int n => simpa [isInt, Countable] using h
  | real x =>
    simp only [isInt, Bool.and_eq_true, decide_eq_true_eq] at h
    exact h.1
  | null | bool b | string t | array elems | object members => cases h

end Json

namespace Cmdline.Parser

variable {V : Type}

def isSet (p : Parser V) (name : String) : Bool := (p.options.lookup name).any OptionBase.hasSet

def valueOf (p : Parser String) (name : String) : String :=
  match p.options.lookup name with
  | some (.withValue _ _ _ _ actual) => actual
  | _ => ""

theorem parse_shape (p : Parser V) (argv : List String) : (p.parse argv).1.shape = p.shape := by
  cases argv with
  | nil => rfl
  | cons prog args =>
    rw [parse]
    cases hTable : shortNames p.options [] with
    | error initial => rfl
    | ok table =>
      obtain ⟨es, hEq, -⟩ := (Lookahead.scan (turn table) p.clear args).checkNeeded_eq
      have hShape : (Lookahead.scan (turn table) p.clear args).shape = p.shape :=
        Lookahead.scan_invariant (fun q arg next hq => (turn_shape q arg next).trans hq) rfl args
      simp only [hEq]
      exact hShape

end Cmdline.Parser

namespace ModuleArgument

open Cmdline

def options : Parser String where
  options := [("dir", stringOption (some 'd')), ("help", .withoutValue (some '?') false),
    ("lib-dir", stringOption none), ("log-dir", stringOption none), ("process-name", stringOption (some 'p')),
    ("sys-conf", stringOption (some 's'))]
  sorted := by decide

theorem make_eq (o : Files) (dir : String) : ∃ parser, make o dir =
    .ok { defaultSysConfDir := o.absolutePath dir, parser := parser } ∧ ∀ argv, parser.parseCheck argv =
      (options.parse argv).1.check argv.length (options.parse argv).2 := by
  exact ⟨_, rfl, fun argv => rfl⟩

theorem get_of_shape {q : Parser String} (h : q.shape = options.shape) (name : String) {c : Option Char}
    (hName : options.shape.lookup name = some (c, false, some some)) :
    q.get name = .ok (q.valueOf name) := by
  rw [← h, Parser.lookup_shape, Option.map_eq_some_iff] at hName
  obtain ⟨o, hLookup, hShape⟩ := hName
  cases o with
  | withoutValue c has => cases hShape
  | withValue c need read has actual =>
    rw [Parser.get, Parser.valueOf, hLookup]

theorem exist_help {q : Parser String} (h : q.shape = options.shape) : q.exist "help" = .ok (q.isSet "help") := by
  have hName : options.shape.lookup "help" = some (some '?', false, none) := rfl
  rw [← h, Parser.lookup_shape, Option.map_eq_some_iff] at hName
  obtain ⟨o, hLookup, -⟩ := hName
  rw [Parser.exist, Parser.isSet, hLookup]
  rfl

theorem check_eq (argv0 : String) (args : List String) :
    (options.parse (argv0 :: args)).1.check (argv0 :: args).length (options.parse (argv0 :: args)).2 =
      if (options.parse (argv0 :: args)).1.isSet "help" = true then .error (.exit 0)
      else if (options.parse (argv0 :: args)).2 = false then .error (.exit 1)
      else .ok (options.parse (argv0 :: args)).1 := by
  have hAlone : (decide ((argv0 :: args).length = 1) && !(options.parse (argv0 :: args)).2) = false := by
    cases args with
    | nil => rfl
    | cons arg args => rfl
  rw [Parser.check, hAlone, exist_help (options.parse_shape _)]
  cases (options.parse (argv0 :: args)).1.isSet "help" with
  | true => rfl
  | false =>
    cases (options.parse (argv0 :: args)).2 with
    | false => rfl
    | true => rfl

end ModuleArgument

namespace Json

def intOr (root : Json) (key : String) (accepts : ℤ → Bool) (dflt : Int32) : Int32 :=
  ((root.intAt key).filter accepts).elim dflt .ofInt

end Json

namespace ModuleArgument

open Cmdline

theorem readInt_eq {root : Json} (h : root.IsMap) (key : String) (accepts : ℤ → Bool) (old : Int32) :
    readInt root key accepts old = .ok (root.intOr key accepts old) := by
  rw [Json.intOr, Json.intAt]
  cases hMember : root.member key with
  | none =>
    rw [readInt, Json.isMember_eq h, hMember]
    rfl
  | some v =>
    have hRead : readInt root key accepts old =
        if v.isInt = true then v.asInt >>= fun n => .ok (if accepts n = true then .ofInt n else old) else .ok old := by
      rw [readInt, Json.isMember_eq h, Json.get_eq h, hMember]
      rfl
    rw [hRead, Option.bind_some]
    split
    · next hInt =>
      obtain ⟨n, hn⟩ := Json.asInt_of_isInt hInt
      rw [hn]
      change Except.ok (if accepts n = true then Int32.ofInt n else old) =
        .ok (((some n).filter accepts).elim old Int32.ofInt)
      rw [Option.filter_some]
      split
      · rfl
      · rfl
    · rfl

theorem readString_eq (showReal : ℚ → String) {root : Json} (h : root.IsMap) (key old : String) :
    readString showReal root key old = .ok ((root.stringAt key).getD old) := by
  rw [readString, Json.isMember_eq h, Json.get_eq h, Json.stringAt]
  cases root.member key with
  | none => rfl
  | some v =>
    cases v with
    | string t => rfl
    | null | bool b | int n | real x | array elems | object members => rfl

section Start

variable (env : Surroundings) (o : Files) (showReal : ℚ → String) (disk : Disk)

def sysConfRoot (q : Parser String) : Json :=
  if q.valueOf "sys-conf" = "" then .null
  else
    Common.loadJsonFromFile o disk
      (if Common.isAbsolutePath (q.valueOf "sys-conf") = true then q.valueOf "sys-conf"
      else Common.joinPath (o.absolutePath env.confDir) (q.valueOf "sys-conf"))

def withConf (x : ModuleArgument) (root : Json) : ModuleArgument :=
  { x with
    threadPollSize := root.intOr "thread_poll_size" isSize x.threadPollSize
    connEventSize := root.intOr "conn_event_size" isSize x.connEventSize
    warningMsgSize := root.intOr "warning_msg_size" isSize x.warningMsgSize
    logDir := (root.stringAt "log_dir").getD x.logDir
    libDir := (root.stringAt "lib_dir").getD x.libDir
    confDir := (root.stringAt "service_dir").getD x.confDir
    defaultPendingQueueSize := root.intOr "default_pending_queue_size" (fun _ => true) x.defaultPendingQueueSize
    defaultRunQueueSize := root.intOr "default_run_queue_size" (fun _ => true) x.defaultRunQueueSize
    logMaxSizeMb := root.intOr "log_max_size_mb" (fun _ => true) x.logMaxSizeMb }

theorem parseSysConf_eq (x : ModuleArgument) (sysConf : String) : x.parseSysConf o showReal disk sysConf =
    let root := Common.loadJsonFromFile o disk (x.fullSysConf sysConf)
    .ok (if root.isObject = true then (x.withConf root, true) else (x, false)) := by
  rw [parseSysConf]
  dsimp only
  generalize Common.loadJsonFromFile o disk (x.fullSysConf sysConf) = root
  cases root with
  | object members =>
    have hMap : (Json.object members).IsMap := trivial
    simp only [readInt_eq hMap, readString_eq showReal hMap]
    rfl
  | null | bool b | int n | real v | string t | array elems => rfl

/-- There is a file to read, and it does not hold an object. -/
def BadSysConf (q : Parser String) : Prop :=
  q.valueOf "sys-conf" ≠ "" ∧ (sysConfRoot env o disk q).isObject = false

instance (q : Parser String) : Decidable (BadSysConf env o disk q) :=
  inferInstanceAs (Decidable (q.valueOf "sys-conf" ≠ "" ∧ (sysConfRoot env o disk q).isObject = false))

def pick (q : Parser String) (option : String) (otherwise : String) : String :=
  if q.valueOf option ≠ "" then q.valueOf option else otherwise

theorem takeProcessName_eq {x : ModuleArgument} (h : x.parser.shape = options.shape) :
    x.takeProcessName = .ok { x with processName := pick x.parser "process-name" x.processName } := by
  rw [takeProcessName, get_of_shape h "process-name" rfl]
  rfl

theorem takeDirs_eq {x : ModuleArgument} (h : x.parser.shape = options.shape) :
    x.takeDirs = .ok { x with
      confDir := pick x.parser "dir" x.confDir
      logDir := pick x.parser "log-dir" x.logDir
      libDir := pick x.parser "lib-dir" x.libDir
      confList := x.confList ++ x.parser.others } := by
  rw [takeDirs, get_of_shape h "dir" rfl, get_of_shape h "log-dir" rfl, get_of_shape h "lib-dir" rfl]
  rfl

theorem takeSysConf_eq {x : ModuleArgument} (h : x.parser.shape = options.shape)
    (hDir : x.defaultSysConfDir = o.absolutePath env.confDir) : x.takeSysConf o showReal disk =
      if BadSysConf env o disk x.parser then .error (.inl (.exit (-1)))
      else .ok (x.withConf (sysConfRoot env o disk x.parser)) := by
  rw [takeSysConf, get_of_shape h "sys-conf" rfl]
  change (if x.parser.valueOf "sys-conf" ≠ "" then _ else _) = _
  by_cases hGiven : x.parser.valueOf "sys-conf" = ""
  · have hNot : ¬BadSysConf env o disk x.parser := fun hBad => hBad.1 hGiven
    rw [if_neg (not_not_intro hGiven), if_neg hNot, sysConfRoot, if_pos hGiven]
    rfl
  · have hRoot : sysConfRoot env o disk x.parser =
        Common.loadJsonFromFile o disk (x.fullSysConf (x.parser.valueOf "sys-conf")) := by
      rw [sysConfRoot, if_neg hGiven, fullSysConf, hDir]
    rw [if_pos hGiven, parseSysConf_eq, ← hRoot]
    dsimp only
    cases hObject : (sysConfRoot env o disk x.parser).isObject with
    | true =>
      have hNot : ¬BadSysConf env o disk x.parser := fun hBad => Bool.false_ne_true (hBad.2.symm.trans hObject)
      rw [if_neg hNot]
      rfl
    | false =>
      have hBad : BadSysConf env o disk x.parser := ⟨hGiven, hObject⟩
      rw [if_pos hBad]
      rfl

def begun (argv0 : String) (args : List String) : ModuleArgument where
  defaultSysConfDir := o.absolutePath env.confDir
  binaryName := Common.filename argv0
  processName := Common.filename argv0 ++ "_" ++ toString env.getpid
  cmd := (argv0 :: args).foldl (fun cmd arg => cmd ++ arg ++ " ") ""
  parser := (options.parse (argv0 :: args)).1

def resolved (argv0 : String) (args : List String) : ModuleArgument :=
  let q := (options.parse (argv0 :: args)).1
  let x := (begun env o argv0 args).withConf (sysConfRoot env o disk q)
  { x with
    processName := pick q "process-name" x.processName
    confDir := pick q "dir" x.confDir
    logDir := pick q "log-dir" x.logDir
    libDir := pick q "lib-dir" x.libDir
    confList := q.others }

theorem parseArgument_eq {parser : Parser String} (hParser : ∀ argv, parser.parseCheck argv =
      (options.parse argv).1.check argv.length (options.parse argv).2) (argv0 : String) (args : List String) :
    ({ defaultSysConfDir := o.absolutePath env.confDir, parser := parser } : ModuleArgument).parseArgument
        env o showReal disk argv0 args =
      if (options.parse (argv0 :: args)).1.isSet "help" = true then .error (.inl (.exit 0))
      else if (options.parse (argv0 :: args)).2 = false then .error (.inl (.exit 1))
      else if BadSysConf env o disk (options.parse (argv0 :: args)).1 then .error (.inl (.exit (-1)))
      else .ok (resolved env o disk argv0 args) := by
  have hShape := options.parse_shape (argv0 :: args)
  rw [parseArgument]
  dsimp only
  rw [hParser, check_eq]
  split
  · rfl
  · split
    · rfl
    · change ((begun env o argv0 args).takeProcessName >>= _) = _
      rw [takeProcessName_eq hShape]
      change (takeSysConf o showReal disk _ >>= _) = _
      rw [takeSysConf_eq env o showReal disk hShape rfl]
      by_cases hBad : BadSysConf env o disk (options.parse (argv0 :: args)).1
      · rw [if_pos hBad]
        exact congrArg (· >>= takeDirs) (if_pos hBad)
      · rw [if_neg hBad]
        refine (congrArg (· >>= takeDirs) (if_neg hBad)).trans ?_
        exact takeDirs_eq hShape

end Start

end ModuleArgument

namespace Launch

open Cmdline ModuleArgument

def dirFrom (o : Files) (q : Parser String) (root : Json) (option key builtIn : String) : String :=
  dirOf o (pick q option ((root.stringAt key).getD "")) builtIn

structure Effective (env : Surroundings) (o : Files) (argv0 : String) (q : Parser String) (root : Json)
    (l : Launch) : Prop where
  settings : Settings.ofArguments o l.args =
    { libDir := o.absolutePath (dirFrom o q root "lib-dir" "lib_dir" env.libDir)
      threadPoolSize := root.intOr "thread_poll_size" isSize 4
      eventConnSize := root.intOr "conn_event_size" isSize 2
      warningMsgSize := root.intOr "warning_msg_size" isSize 10
      defaultPendingQueueSize := root.intOr "default_pending_queue_size" (fun _ => true) (-1)
      defaultRunQueueSize := root.intOr "default_run_queue_size" (fun _ => true) 2 }
  logDir : l.logDir = dirFrom o q root "log-dir" "log_dir" env.logDir
  logMaxSizeMb : l.logMaxSizeMb = root.intOr "log_max_size_mb" (fun _ => true) 100
  processName : l.processName = pick q "process-name" (Common.filename argv0 ++ "_" ++ toString env.getpid)
  serviceDir : l.serviceDir = dirFrom o q root "dir" "service_dir" env.serviceDir
  confFiles : l.confFiles = q.others.map fun conf =>
    if Common.isAbsolutePath conf = true then conf else Common.joinPath l.serviceDir conf

variable (env : Surroundings) (o : Files) (showReal : ℚ → String) (disk : Disk)

/-- What `App::Init` takes from the arguments is what the launcher has put into them. -/
theorem ofArguments_ofModuleArgument (x : ModuleArgument) : Settings.ofArguments o (ofModuleArgument env o x).args =
    { libDir := o.absolutePath (dirOf o x.libDir env.libDir)
      threadPoolSize := x.threadPollSize
      eventConnSize := x.connEventSize
      warningMsgSize := x.warningMsgSize
      defaultPendingQueueSize := x.defaultPendingQueueSize
      defaultRunQueueSize := x.defaultRunQueueSize } := by
  simp [ofModuleArgument, Arguments.setStr, Arguments.setInt, Settings.ofArguments, Settings.scanArg,
    argKeyServiceLibDir, argKeyThreadPoolSize, argKeyEventConneSize, argKeyWarningMsgSize, argKeyPendingQueueSize,
    argKeyRunQueueSize]

theorem effective_resolved (argv0 : String) (args : List String) :
    Effective env o argv0 (options.parse (argv0 :: args)).1
      (sysConfRoot env o disk (options.parse (argv0 :: args)).1)
      (ofModuleArgument env o (resolved env o disk argv0 args)) := by
  -- what the options are is not looked at here, and `rfl` must not unfold the parser
  rw [resolved, begun]
  generalize (options.parse (argv0 :: args)).1 = q
  exact
    { settings := ofArguments_ofModuleArgument env o _
      logDir := rfl
      logMaxSizeMb := rfl
      processName := rfl
      serviceDir := rfl
      confFiles := rfl }

theorem main_eq (argv0 : String) (args : List String) : main env o showReal disk argv0 args =
    if (options.parse (argv0 :: args)).1.isSet "help" = true then .error (.inl (.exit 0))
    else if (options.parse (argv0 :: args)).2 = false then .error (.inl (.exit 1))
    else if BadSysConf env o disk (options.parse (argv0 :: args)).1 then .error (.inl (.exit (-1)))
    else .ok (ofModuleArgument env o (resolved env o disk argv0 args)) := by
  obtain ⟨parser, hMake, hParser⟩ := make_eq o env.confDir
  rw [main, hMake]
  change (parseArgument env o showReal disk _ argv0 args >>= _) = _
  rw [parseArgument_eq env o showReal disk hParser]
  split
  · rfl
  · split
    · rfl
    · split
      · rfl
      · rfl

/-- The ways in which the launcher starts: `q` and `ok` are what the parser makes of the command line, `root` is the
configuration file. -/
inductive Outcome (env : Surroundings) (o : Files) (argv0 : String) (q : Parser String) (root : Json) :
    Bool → Except Stop Launch → Prop where
  | help {ok : Bool} (hHelp : q.isSet "help" = true) : Outcome env o argv0 q root ok (.error (.inl (.exit 0)))
  | wrong (hHelp : q.isSet "help" = false) : Outcome env o argv0 q root false (.error (.inl (.exit 1)))
  | badSysConf (hHelp : q.isSet "help" = false) (hGiven : q.valueOf "sys-conf" ≠ "")
      (hObject : root.isObject = false) : Outcome env o argv0 q root true (.error (.inl (.exit (-1))))
  | launches {l : Launch} (hHelp : q.isSet "help" = false) (hObject : q.valueOf "sys-conf" ≠ "" → root.isObject = true)
      (hLaunch : Effective env o argv0 q root l) : Outcome env o argv0 q root true (.ok l)

/-- The launcher exits with 0 where help is asked for, otherwise with 1 where the command line is wrong and with
-1 where the configuration file is; else it goes on with its settings. -/
theorem main_outcome (argv0 : String) (args : List String) :
    Outcome env o argv0 (options.parse (argv0 :: args)).1 (sysConfRoot env o disk (options.parse (argv0 :: args)).1)
      (options.parse (argv0 :: args)).2 (main env o showReal disk argv0 args) := by
  rw [main_eq]
  split
  · next hHelp => exact .help hHelp
  · next hHelp =>
    have hNoHelp := Bool.eq_false_iff.mpr hHelp
    split
    · next hWrong =>
      rw [hWrong]
      exact .wrong hNoHelp
    · next hRight =>
      rw [Bool.eq_true_of_not_eq_false hRight]
      split
      · next hBad => exact .badSysConf hNoHelp hBad.1 hBad.2
      · next hGood =>
        refine .launches hNoHelp (fun hGiven => ?_) (effective_resolved env o disk argv0 args)
        exact Bool.eq_true_of_not_eq_false fun hNot => hGood ⟨hGiven, hNot⟩

theorem isSize_intOr (root : Json) (key : String) {dflt : Int32} (h : isSize dflt.toInt = true) :
    isSize (root.intOr key isSize dflt).toInt = true := by
  rw [Json.intOr]
  cases hFilter : (root.intAt key).filter isSize with
  | none => exact h
  | some n =>
    obtain ⟨-, hSize⟩ := Option.filter_eq_some_iff.mp hFilter
    have hBounds : 0 < n ∧ n < 1024 := by simpa [isSize] using hSize
    have hInt : (Int32.ofInt n).toInt = n := Int32.toInt_ofInt_of_le (by omega) (by omega)
    rw [Option.elim_some, hInt]
    exact hSize

/-- Whatever the command line and the file say, the pools begin with 1 to 1023 members. -/
theorem sizes_in_range {argv0 : String} {args : List String} {l : Launch}
    (h : main env o showReal disk argv0 args = .ok l) :
    isSize (Settings.ofArguments o l.args).threadPoolSize.toInt = true ∧
      isSize (Settings.ofArguments o l.args).eventConnSize.toInt = true ∧
      isSize (Settings.ofArguments o l.args).warningMsgSize.toInt = true := by
  have hSettings : ∃ root : Json, (Settings.ofArguments o l.args).threadPoolSize =
      root.intOr "thread_poll_size" isSize 4 ∧ (Settings.ofArguments o l.args).eventConnSize =
      root.intOr "conn_event_size" isSize 2 ∧ (Settings.ofArguments o l.args).warningMsgSize =
      root.intOr "warning_msg_size" isSize 10 := by
    rw [main_eq] at h
    split at h
    · cases h
    · split at h
      · cases h
      · split at h
        · cases h
        · obtain rfl := Except.ok.inj h
          exact ⟨_, rfl, rfl, rfl⟩
  obtain ⟨root, hThread, hConn, hWarning⟩ := hSettings
  rw [hThread, hConn, hWarning]
  exact ⟨isSize_intOr root _ rfl, isSize_intOr root _ rfl, isSize_intOr root _ rfl⟩

end Launch
end Myframe
