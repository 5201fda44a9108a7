import Workshop.CMemory

/-!
# Configuration of the file server

The constructor reads key and value alternately with `std::getline` and adds a
line end to every value. An input stream is what is left to read with its two
state bits. The map keeps the first value of a key.
-/

set_option autoImplicit false

namespace Workshop.FtpConfig
open Workshop.CMemory

abbrev newline : UInt8 := 10

def keyUser : Text := text "user"
def keyPass : Text := text "password"
def msgNewClient : Text := text "newClient"
def msgPassRequired : Text := text "passRequired"
def msgLoginFailed : Text := text "loginFailed"
def msgLoginSuccess : Text := text "loginSuccess"
def msgNotLogged : Text := text "clientNotLogged"
def msgPwd : Text := text "currentDirectoryMsg"
def msgListBegin : Text := text "listBegin"
def msgListEnd : Text := text "listEnd"
def msgMkdSuccess : Text := text "mkdSuccess"
def msgMkdFailure : Text := text "mkdFailed"
def msgRmdSuccess : Text := text "rmdSuccess"
def msgRmdFailed : Text := text "rmdFailed"
def msgQuit : Text := text "quitSuccess"
def msgSyst : Text := text "systemInfo"
def msgUnknown : Text := text "unknownCommand"
def msgHelp : Text := text "commands"

def messageKeys : List Text :=
  [keyUser,keyPass,msgNewClient,msgPassRequired,msgLoginFailed,msgLoginSuccess,msgNotLogged,
    msgPwd,msgListBegin,msgListEnd,msgMkdSuccess,msgMkdFailure,msgRmdSuccess,msgRmdFailed,
    msgQuit,msgSyst,msgUnknown,msgHelp]

structure Stream where
  rest : Text
  eof : Bool
  fail : Bool
  deriving DecidableEq, Repr

/-- A file that cannot be opened sets the fail bit only. -/
def openStream : Option Text → Stream
  | some content => ⟨content,false,false⟩
  | none => ⟨[],false,true⟩

/-- `std::getline`: a stream that is not good fails and leaves the target
alone. Otherwise the target gets everything before the delimiter, which is
taken from the stream, or everything up to the end, which sets the end bit. -/
def getline (delim : UInt8) (s : Stream) (target : Text) : Stream × Text :=
  if s.eof || s.fail then ({ s with fail := true },target)
  else if delim ∈ s.rest then
    ({ s with rest := (s.rest.dropWhile (· ≠ delim)).tail },s.rest.takeWhile (· ≠ delim))
  else (⟨[],true,s.rest.isEmpty⟩,s.rest)

/-- Every stored value ends with the line end the constructor appended. -/
structure Config where
  configmap : List (Text × Text)
  lined : ∀ entry ∈ configmap, ∃ value, entry.2 = value++[newline]

def Config.emplace (cfg : Config) (key value : Text) : Config :=
  if cfg.configmap.any (·.1 = key) then cfg
  else
    { configmap := cfg.configmap++[(key,value++[newline])]
      lined := by
        intro entry he
        rcases List.mem_append.mp he with h | h
        · exact cfg.lined entry h
        · rw [List.mem_singleton.mp h]
          exact ⟨value,rfl⟩ }

structure Loading where
  configstream : Stream
  auxStr1 : Text
  auxStr2 : Text
  cfg : Config

def loadEntry (l : Loading) : Loading :=
  let key := getline '='.toUInt8 l.configstream l.auxStr1
  let value := getline newline key.1 l.auxStr2
  ⟨value.1,key.2,value.2++[newline],l.cfg.emplace key.2 value.2⟩

def loadLoop : ℕ → Loading → Except Halt Config
  | 0, _ => .error .running
  | n+1, l => if l.configstream.eof then .ok l.cfg else loadLoop n (loadEntry l)

def emptyConfig : Config := ⟨[],by simp⟩

def Config.construct (file : Option Text) (n : ℕ) : Except Halt Config :=
  loadLoop n ⟨openStream file,[],[],⟨[],by simp⟩⟩

/-- A missing key dereferences the end of the map. -/
def Config.getMessage (cfg : Config) (key : Text) : Except Halt Text :=
  match cfg.configmap.lookup key with
  | some value => .ok value
  | none => .error (.fault .endIterator)

def Config.Defines (cfg : Config) (key : Text) : Prop := (cfg.configmap.lookup key).isSome

instance (cfg : Config) (key : Text) : Decidable (cfg.Defines key) :=
  inferInstanceAs (Decidable (_ = true))

def Config.DefinesAll (cfg : Config) : Prop := ∀ key ∈ messageKeys, cfg.Defines key

instance (cfg : Config) : Decidable cfg.DefinesAll :=
  inferInstanceAs (Decidable (∀ key ∈ messageKeys, cfg.Defines key))

def Config.value (cfg : Config) (key : Text) : Text := (cfg.configmap.lookup key).getD []

def namesConfig : Config where
  configmap := messageKeys.map fun key => (key,key++[newline])
  lined := by
    intro entry he
    obtain ⟨key,_,rfl⟩ := List.mem_map.mp he
    exact ⟨key,rfl⟩

theorem namesConfig_defines : namesConfig.DefinesAll := by
  decide

theorem getMessage_eq {cfg : Config} {key : Text} (h : cfg.Defines key) :
    cfg.getMessage key = .ok (cfg.value key) := by
  obtain ⟨value,hv⟩ := Option.isSome_iff_exists.mp h
  rw [Config.getMessage, Config.value, hv]
  rfl

theorem getMessage_fault {cfg : Config} {key : Text} (h : ¬ cfg.Defines key) :
    cfg.getMessage key = .error (.fault .endIterator) := by
  rw [Config.Defines, Option.not_isSome_iff_eq_none] at h
  rw [Config.getMessage, h]

theorem getMessage_error {cfg : Config} {key : Text} {e : Halt}
    (h : cfg.getMessage key = .error e) : e = .fault .endIterator := by
  rw [Config.getMessage] at h
  cases hk : cfg.configmap.lookup key with
  | some value =>
    rw [hk] at h
    cases h
  | none =>
    rw [hk] at h
    exact (Except.error.inj h).symm

theorem value_lined {cfg : Config} {key : Text} (h : cfg.Defines key) :
    ∃ value, cfg.value key = value++[newline] := by
  obtain ⟨value,hv⟩ := Option.isSome_iff_exists.mp h
  rw [Config.value, hv]
  obtain ⟨front,back,hmem,_⟩ := List.lookup_eq_some_iff.mp hv
  exact cfg.lined (key,value) (by simp [hmem])

end Workshop.FtpConfig
