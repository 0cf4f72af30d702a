import Chip8.CommandLine.Text
import Chip8.Machine.Step

/-!
# Launching a program

A machine is made from its seed and the program is loaded into it from what opening its file gave.
The exit code is 0 for help and version, 2 for a refused command line, 1 for a failed launch.
-/

namespace Chip8

/-! ## Faults of files -/

inductive FileFault where
  | numbered (code : Nat) (description : String)
  | nulInName
deriving DecidableEq, Repr

namespace FileFault

def notFound : FileFault := numbered 2 "No such file or directory"

def notADirectory : FileFault := numbered 20 "Not a directory"

def isADirectory : FileFault := numbered 21 "Is a directory"

def nameTooLong : FileFault := numbered 36 "File name too long"

def message : FileFault → String
  | numbered code description =>
    description ++ " (os error " ++ Numeral.decimal code ++ ")"
  | nulInName => "file name contained an unexpected NUL byte"

end FileFault

/-! ## Working directories -/

structure Directory where
  files : List (String × List UInt8)
  folders : List String

namespace Directory

inductive Place where
  | here
  | folder
  | outside
  | file (contents : List UInt8)
deriving DecidableEq

def nameLimit : Nat := 255

def pathLimit : Nat := 4096

def lookUp (d : Directory) (name : String) : Except FileFault Place :=
  match d.files.lookup name with
  | some contents => .ok (.file contents)
  | none => if name ∈ d.folders then .ok .folder else .error .notFound

def enter (d : Directory) (place : Place) (name : String) : Except FileFault Place :=
  match place, name with
  | .file _, _ => .error .notADirectory
  | place, "." => .ok place
  | .folder, ".." => .ok .here
  | _, ".." => .ok .outside
  | place, name =>
    if nameLimit < name.utf8ByteSize then .error .nameTooLong
    else
      match place with
      | .here => d.lookUp name
      | _ => .error .notFound

/-- The components of a path. Slashes stand together as one; a slash at the end asks for a
directory, just as a dot there does. -/
def components (path : String) : List String :=
  let parts := path.splitOn "/"
  let names := parts.filter (· ≠ "")
  if parts.getLast? = some "" then names ++ ["."] else names

def follow (d : Directory) (path : String) : Except FileFault Place :=
  let first := if path.startsWith "/" then Place.outside else Place.here
  (components path).foldlM d.enter first

def openFile (d : Directory) (path : String) : Except FileFault Source :=
  if path.contains '\x00' then .error .nulInName
  else if path.isEmpty then .error .notFound
  else if pathLimit ≤ path.utf8ByteSize then .error .nameTooLong
  else
    (d.follow path).map fun
      | .file contents => .chunk contents .done
      | _ => .failed FileFault.isADirectory.message

end Directory

/-! ## Launches -/

inductive LaunchFault where
  | unopened (rom : String) (fault : FileFault)
  | unloaded (rom : String) (fault : LoadFault)
deriving DecidableEq, Repr

namespace LaunchFault

def message : LaunchFault → String
  | unopened rom _ => "unable to open " ++ rom
  | unloaded rom _ => "unable to load " ++ rom

def causes : LaunchFault → List String
  | unopened _ fault => [fault.message]
  | unloaded _ fault => fault.message :: fault.cause?.toList

def chain (fault : LaunchFault) : List String := fault.message :: fault.causes

def causeLines : List String → String
  | [cause] => "    " ++ cause ++ "\n"
  | causes =>
    String.join (causes.zipIdx.map fun (cause, k) =>
      "    " ++ Numeral.decimal k ++ ": " ++ cause ++ "\n")

def report (fault : LaunchFault) : String :=
  "Error: " ++ fault.message ++ "\n\nCaused by:\n" ++ causeLines fault.causes

end LaunchFault

def launch (seed : UInt64) (rom : String) (opened : Except FileFault Source) :
    Outcome LaunchFault :=
  let fresh := Machine.ofSeed seed
  match opened with
  | .error fault => ⟨fresh, [.seeding seed], some (.unopened rom fault)⟩
  | .ok source =>
    let loaded := (fresh.loadRom source).mapFault (LaunchFault.unloaded rom)
    let ready := if loaded.fault?.isNone then [.ready rom] else []
    { loaded with log := .seeding seed :: (loaded.log ++ ready) }

/-! ## How the program ends -/

structure Exit where
  code : Nat
  out : String
  err : String
deriving DecidableEq, Repr

namespace Exit

def ofStop (stop : CommandLine.Stop) : Exit :=
  match stop with
  | .refused _ => ⟨2, "", stop.text .stream⟩
  | _ => ⟨0, stop.text .stream, ""⟩

def ofLaunch (outcome : Outcome LaunchFault) : Exit :=
  match outcome.fault? with
  | none => ⟨0, "", ""⟩
  | some fault => ⟨1, "", fault.report⟩

/-- How the program ends for these options, where `opened` is what opening their program gave and
`chance` is the seed in case none is given. -/
def ofOptions (options : CommandLine.Options) (chance : UInt64)
    (opened : Except FileFault Source) : Exit :=
  ofLaunch (launch (options.seed?.getD chance) options.rom opened)

def ofArguments (arguments : List String) (chance : UInt64)
    (openRom : String → Except FileFault Source) : Exit :=
  match CommandLine.parse arguments with
  | .error stop => ofStop stop
  | .ok options => ofOptions options chance (openRom options.rom)

end Exit

end Chip8
