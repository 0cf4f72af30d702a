import Chip8.Launch

/-!
# The command line program

Opens and reads the program named by the arguments, and prints how it ended. All decisions are those
of `Exit`.
-/

namespace Chip8.Main

/-- The number and text that the operating system gives; a failure without a number counts as one of
input and output. -/
def fileFault : IO.Error → FileFault
  | .alreadyExists _ code details => .numbered code.toNat details
  | .otherError code details => .numbered code.toNat details
  | .resourceBusy code details => .numbered code.toNat details
  | .resourceVanished code details => .numbered code.toNat details
  | .unsupportedOperation code details => .numbered code.toNat details
  | .hardwareFault code details => .numbered code.toNat details
  | .unsatisfiedConstraints code details => .numbered code.toNat details
  | .illegalOperation code details => .numbered code.toNat details
  | .protocolError code details => .numbered code.toNat details
  | .timeExpired code details => .numbered code.toNat details
  | .interrupted _ code details => .numbered code.toNat details
  | .noFileOrDirectory _ code details => .numbered code.toNat details
  | .invalidArgument _ code details => .numbered code.toNat details
  | .permissionDenied _ code details => .numbered code.toNat details
  | .resourceExhausted _ code details => .numbered code.toNat details
  | .inappropriateType _ code details => .numbered code.toNat details
  | .noSuchThing _ code details => .numbered code.toNat details
  | .unexpectedEof => .numbered 5 "Input/output error"
  | .userError _ => .numbered 5 "Input/output error"

def openRom (path : String) : IO (Except FileFault Source) := do
  match ← (IO.FS.Handle.mk path .read).toBaseIO with
  | .error fault => return .error (fileFault fault)
  | .ok handle =>
    match ← handle.readBinToEnd.toBaseIO with
    | .error fault => return .ok (.failed (fileFault fault).message)
    | .ok bytes => return .ok (.chunk bytes.toList .done)

def chanceSeed : IO UInt64 := do
  let bytes ← IO.getRandomBytes 8
  return bytes.toList.foldl (fun seed byte => seed * 256 + byte.toUInt64) 0

def ending (arguments : List String) : IO Exit := do
  match CommandLine.parse arguments with
  | .error stop => return .ofStop stop
  | .ok options => return .ofOptions options (← chanceSeed) (← openRom options.rom)

end Chip8.Main

def main (arguments : List String) : IO UInt32 := do
  let ended ← Chip8.Main.ending arguments
  IO.print ended.out
  IO.eprint ended.err
  return UInt32.ofNat ended.code
