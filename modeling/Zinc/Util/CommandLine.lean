import Zinc.Base.Overwriting
import Zinc.Buffer.Codec

/-! The command line of the server. `parse` takes settings, which are two words each, as long as
there are any, and what is left decides how it ends. The second word of a setting is not looked
at for an option, and the first one alone is ignored at the end. So a command line is read as one
sequence of settings and a rest, and of each setting the last one is kept. -/

namespace Zinc.Util

open Buffer Overwriting

structure ZincArguments where
  debug : Bool
  workDir : Bytes
  deriving DecidableEq

/-- The members' initial values. -/
def ZincArguments.new : ZincArguments := ⟨false, utf8 "."⟩

/-- How `parse` ends: it returns, or it prints a text and calls `exit`. -/
inductive Parsed where
  | returns (arguments : ZincArguments)
  | exit (code : ℕ) (output : Bytes)
  deriving DecidableEq

/-- `ZINC_VERSION`. -/
def zincVersion : String := "undefined"

/-- `LATEST_MINECRAFT_VERSION`. -/
def latestMinecraftVersion : String := "1.21.5"

/-- `LATEST_MINECRAFT_VERSION_PROTOCOL`. -/
def latestMinecraftVersionProtocol : ℕ := 770

/-- What `--help` prints. -/
def helpText (program : Bytes) : Bytes :=
  utf8 "zinc\n" ++ (utf8 "syntax \"" ++ program ++ utf8 " [args...]\"\n") ++ utf8 "options\n" ++
    utf8 "    --debug on/off                 enable/disable debug mode\n" ++
    utf8 "    --workdir path                 specify custom workdir path\n" ++
    utf8 "    --help                         display this message\n" ++
    utf8 "    --version                      display version\n"

/-- What `--version` prints. -/
def versionText : Bytes :=
  utf8 "zinc\n" ++ utf8 ("zinc version " ++ zincVersion ++ "\n") ++
    utf8 ("minecraft version " ++ latestMinecraftVersion ++ " (" ++
      toString latestMinecraftVersionProtocol ++ ")\n")

/-- What any other word prints. -/
def undefinedText (program arg : Bytes) : Bytes :=
  utf8 "zinc\n" ++ (utf8 "undefined argument \"" ++ arg ++ utf8 "\"\n") ++
    (utf8 "use \"" ++ program ++ utf8 " --help\" for help\n")

namespace ZincArguments

/-- The loop of `parse` behind the name of the program. -/
def parseLoop (program : Bytes) (arguments : ZincArguments) : List Bytes → Parsed
  | [] => .returns arguments
  | arg :: rest =>
    if arg = utf8 "--debug" then
      match rest with
      | [] => .returns arguments
      | value :: rest => parseLoop program { arguments with debug := value = utf8 "on" } rest
    else if arg = utf8 "--workdir" then
      match rest with
      | [] => .returns arguments
      | value :: rest => parseLoop program { arguments with workDir := value } rest
    else if arg = utf8 "--help" then .exit 0 (helpText program)
    else if arg = utf8 "--version" then .exit 0 versionText
    else .exit 1 (undefinedText program arg)

def parse (arguments : ZincArguments) : List Bytes → Parsed
  | [] => .returns arguments
  | program :: args => parseLoop program arguments args

end ZincArguments

/-! ### Command lines -/

inductive SettingName where
  | debug
  | workDir
  deriving DecidableEq

def SettingName.word : SettingName → Bytes
  | debug => utf8 "--debug"
  | workDir => utf8 "--workdir"

structure Setting where
  name : SettingName
  value : Bytes

def Setting.words (setting : Setting) : List Bytes := [setting.name.word, setting.value]

/-- What can stand behind the settings: nothing, one word, or a word that is no option with a
value and whatever follows it. -/
def Ending : List Bytes → Prop
  | [] | [_] => True
  | word :: _ :: _ => ∀ name : SettingName, word ≠ name.word

/-- Settings and the words behind them. -/
structure CommandLine where
  settings : List Setting
  rest : List Bytes
  ending : Ending rest

namespace CommandLine

def words (line : CommandLine) : List Bytes := line.settings.flatMap Setting.words ++ line.rest

/-- The value of the last setting with this name. -/
def last (name : SettingName) (line : CommandLine) : Option Bytes :=
  (lastCall (fun setting : Setting => setting.name = name) line.settings).map Setting.value

/-- The arguments that the settings stand for. -/
def arguments (initial : ZincArguments) (line : CommandLine) : ZincArguments where
  debug := ((line.last .debug).map fun value => decide (value = utf8 "on")).getD initial.debug
  workDir := (line.last .workDir).getD initial.workDir

/-- How the words behind the settings end. -/
def outcome (program : Bytes) (initial : ZincArguments) (line : CommandLine) : Parsed :=
  match line.rest with
  | [] => .returns (line.arguments initial)
  | word :: _ =>
    if word = SettingName.debug.word ∨ word = SettingName.workDir.word then
      .returns (line.arguments initial)
    else if word = utf8 "--help" then .exit 0 (helpText program)
    else if word = utf8 "--version" then .exit 0 versionText
    else .exit 1 (undefinedText program word)

end CommandLine

/-! ### Reading a command line -/

namespace ZincArguments

/-- What a setting changes. -/
def set (arguments : ZincArguments) (setting : Setting) : ZincArguments :=
  match setting.name with
  | .debug => { arguments with debug := setting.value = utf8 "on" }
  | .workDir => { arguments with workDir := setting.value }

variable {program : Bytes}

theorem parseLoop_setting (arguments : ZincArguments) (setting : Setting) (rest : List Bytes) :
    parseLoop program arguments (setting.words ++ rest) =
      parseLoop program (arguments.set setting) rest := by
  rcases setting with ⟨_ | _, value⟩
  · exact if_pos rfl
  · have hword : SettingName.workDir.word ≠ utf8 "--debug" := by decide
    exact (if_neg hword).trans (if_pos rfl)

theorem parseLoop_settings (arguments : ZincArguments) (settings : List Setting)
    (rest : List Bytes) : parseLoop program arguments (settings.flatMap Setting.words ++ rest) =
      parseLoop program (settings.foldl set arguments) rest := by
  induction settings generalizing arguments with
  | nil => rfl
  | cons setting settings ih =>
    rw [List.flatMap_cons, List.append_assoc, parseLoop_setting, ih, List.foldl_cons]

theorem debug_set (arguments : ZincArguments) (setting : Setting) : (arguments.set setting).debug =
    if setting.name = .debug then decide (setting.value = utf8 "on") else arguments.debug := by
  rcases setting with ⟨_ | _, _⟩ <;> rfl

theorem workDir_set (arguments : ZincArguments) (setting : Setting) :
    (arguments.set setting).workDir =
      if setting.name = .workDir then setting.value else arguments.workDir := by
  rcases setting with ⟨_ | _, _⟩ <;> rfl

/-- The settings leave their last values behind. -/
theorem foldl_set (arguments : ZincArguments) (line : CommandLine) :
    line.settings.foldl set arguments = line.arguments arguments := by
  have hdebug := @read_foldl _ _ _ set (fun setting => setting.name = .debug) debug
    (fun setting => decide (setting.value = utf8 "on"))
    (fun s setting h => by rw [debug_set, if_pos (of_decide_eq_true h)])
    (fun s setting h => by rw [debug_set, if_neg fun heq => h (decide_eq_true heq)])
    arguments line.settings
  have hworkDir := @read_foldl _ _ _ set (fun setting => setting.name = .workDir) workDir
    Setting.value (fun s setting h => by rw [workDir_set, if_pos (of_decide_eq_true h)])
    (fun s setting h => by rw [workDir_set, if_neg fun heq => h (decide_eq_true heq)])
    arguments line.settings
  unfold CommandLine.arguments CommandLine.last
  rw [Option.map_map, ← hworkDir]
  exact congrArg (ZincArguments.mk · _) hdebug

/-- The first word of a setting is ignored at the end. -/
theorem parseLoop_name (arguments : ZincArguments) (name : SettingName) :
    parseLoop program arguments [name.word] = .returns arguments := by
  cases name with
  | debug => exact if_pos rfl
  | workDir =>
    have hword : SettingName.workDir.word ≠ utf8 "--debug" := by decide
    exact (if_neg hword).trans (if_pos rfl)

/-- Any other word ends the process. -/
theorem parseLoop_other (arguments : ZincArguments) {word : Bytes} (rest : List Bytes)
    (h : ∀ name : SettingName, word ≠ name.word) : parseLoop program arguments (word :: rest) =
      if word = utf8 "--help" then .exit 0 (helpText program)
      else if word = utf8 "--version" then .exit 0 versionText
      else .exit 1 (undefinedText program word) := by
  have hdebug : word ≠ utf8 "--debug" := h .debug
  have hworkDir : word ≠ utf8 "--workdir" := h .workDir
  cases rest <;> exact (if_neg hdebug).trans (if_neg hworkDir)

end ZincArguments

namespace CommandLine

open ZincArguments

variable {program : Bytes}

/-- What stands behind the settings decides how the loop ends. -/
theorem parseLoop_rest (initial : ZincArguments) (line : CommandLine) :
    parseLoop program (line.arguments initial) line.rest = line.outcome program initial := by
  unfold outcome
  have hending := line.ending
  generalize line.rest = rest at hending ⊢
  rcases rest with _ | ⟨word, rest⟩
  · rfl
  · by_cases hname : ∃ name : SettingName, word = name.word
    · obtain ⟨name, rfl⟩ := hname
      have hor : name.word = SettingName.debug.word ∨ name.word = SettingName.workDir.word := by
        cases name
        · exact .inl rfl
        · exact .inr rfl
      rcases rest with _ | ⟨value, rest⟩
      · exact (parseLoop_name _ name).trans (if_pos hor).symm
      · exact absurd rfl (hending name)
    · have hname := not_exists.mp hname
      have hor : ¬ (word = SettingName.debug.word ∨ word = SettingName.workDir.word) :=
        not_or.mpr ⟨hname .debug, hname .workDir⟩
      exact (parseLoop_other _ rest hname).trans (if_neg hor).symm

/-- Every sequence of words is a command line. -/
theorem exists_words : (args : List Bytes) → ∃ line : CommandLine, line.words = args
  | [] => ⟨⟨[], [], trivial⟩, rfl⟩
  | [word] => ⟨⟨[], [word], trivial⟩, rfl⟩
  | word :: value :: args => by
    by_cases hname : ∃ name : SettingName, word = name.word
    · obtain ⟨name, rfl⟩ := hname
      obtain ⟨⟨settings, rest, hending⟩, hwords⟩ := exists_words args
      refine ⟨⟨⟨name, value⟩ :: settings, rest, hending⟩, ?_⟩
      rw [← hwords]
      rfl
    · exact ⟨⟨[], word :: value :: args, not_exists.mp hname⟩, rfl⟩

theorem word_inj {name name' : SettingName} (h : name.word = name'.word) : name = name' := by
  revert h
  cases name <;> cases name' <;> decide

/-- Settings end where a rest begins. -/
theorem words_inj {rest rest' : List Bytes} (h : Ending rest) (h' : Ending rest') :
    (settings settings' : List Setting) →
      settings.flatMap Setting.words ++ rest = settings'.flatMap Setting.words ++ rest' →
        settings = settings' ∧ rest = rest'
  | [], [], heq => ⟨rfl, heq⟩
  | [], setting :: settings, heq => by
    obtain rfl : rest = setting.name.word :: setting.value ::
      (settings.flatMap Setting.words ++ rest') := heq
    exact absurd rfl (h setting.name)
  | setting :: settings, [], heq => by
    obtain rfl : setting.name.word :: setting.value ::
      (settings.flatMap Setting.words ++ rest) = rest' := heq
    exact absurd rfl (h' setting.name)
  | ⟨name, value⟩ :: settings, ⟨name', value'⟩ :: settings', heq => by
    have hwords : name.word :: value :: (settings.flatMap Setting.words ++ rest) =
      name'.word :: value' :: (settings'.flatMap Setting.words ++ rest') := heq
    simp only [List.cons.injEq] at hwords
    obtain ⟨hname, rfl, hrest⟩ := hwords
    obtain rfl := word_inj hname
    obtain ⟨rfl, hlast⟩ := words_inj h h' settings settings' hrest
    exact ⟨rfl, hlast⟩

/-- Whatever words stand behind the name of the program, they are settings and a rest in one way
only; the last settings of each name and this rest decide what `parse` does. -/
theorem parse_commandLine (initial : ZincArguments) (program : Bytes) (args : List Bytes) :
    ∃! line : CommandLine, line.words = args ∧
      initial.parse (program :: args) = line.outcome program initial := by
  obtain ⟨line, rfl⟩ := exists_words args
  have hparse : initial.parse (program :: line.words) = line.outcome program initial := by
    rw [parse, words, parseLoop_settings, foldl_set, parseLoop_rest]
  refine ⟨line, ⟨rfl, hparse⟩, ?_⟩
  rintro ⟨settings, rest, hending⟩ ⟨hwords, -⟩
  obtain ⟨rfl, rfl⟩ := words_inj hending line.ending settings line.settings hwords
  rfl

/-- A word that looks like an option is the value of the one before it. -/
example : ZincArguments.new.parse [utf8 "zinc", utf8 "--workdir", utf8 "--help", utf8 "--debug"] =
    .returns ⟨false, utf8 "--help"⟩ := by decide

end CommandLine

end Zinc.Util
