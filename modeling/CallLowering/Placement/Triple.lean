/-! Target triples, written `architecture-os`. -/

namespace CallLowering

inductive Architecture where
  | x64
  | x86
  | arm64
  | arm32
deriving DecidableEq, Repr

inductive OperatingSystem where
  | windows
  | linux
  | macos
deriving DecidableEq, Repr

structure Triple where
  architecture : Architecture
  os : OperatingSystem
deriving DecidableEq, Repr

inductive TripleError where
  | invalidFormat (text : String)
  | architectureNotSupported
  | osNotSupported
  | invalidCombination
deriving DecidableEq, Repr

def TripleError.name : TripleError → String
  | .invalidFormat _ => "InvalidFormat"
  | .architectureNotSupported => "ArchitectureNotSupported"
  | .osNotSupported => "OsNotSupported"
  | .invalidCombination => "InvalidCombination"

def TripleError.message : TripleError → String
  | .invalidFormat text => s!"the format of triple must be `architecture-os`: but got `{text}`"
  | .architectureNotSupported => "given architecture is not supported"
  | .osNotSupported => "given operating system is not supported"
  | .invalidCombination => "given triple consists of invalid combination"

namespace Architecture

def parse? : String → Option Architecture
  | "x64" | "x86_64" | "amd64" => some x64
  | "x86" | "i686" => some x86
  | "arm64" | "aarch64" => some arm64
  | "arm32" | "arm" => some arm32
  | _ => none

def text : Architecture → String
  | x64 => "x64"
  | x86 => "x86"
  | arm64 => "arm64"
  | arm32 => "arm32"

def pointerSize : Architecture → Nat
  | x64 | arm64 => 8
  | x86 | arm32 => 4

end Architecture

namespace OperatingSystem

def parse? : String → Option OperatingSystem
  | "windows" | "win" => some windows
  | "linux" => some linux
  | "macos" | "osx" => some macos
  | _ => none

def text : OperatingSystem → String
  | windows => "windows"
  | linux => "linux"
  | macos => "macos"

end OperatingSystem

namespace Triple

def isSupported : Architecture → OperatingSystem → Bool
  | .arm32, .windows | .arm32, .macos | .x86, .macos => false
  | _, _ => true

-- The parts are judged from left to right, so an unknown architecture is reported before a missing
-- or a surplus part.
def parse (text : String) : Except TripleError Triple := do
  let parts := text.splitOn "-"
  let some architecture := Architecture.parse? (parts.headD "") | .error .architectureNotSupported
  let osPart :: surplus := parts.drop 1 | .error (.invalidFormat text)
  let some os := OperatingSystem.parse? osPart | .error .osNotSupported
  if !surplus.isEmpty then .error (.invalidFormat text)
  else if isSupported architecture os then .ok ⟨architecture, os⟩
  else .error .invalidCombination

def text (triple : Triple) : String := triple.architecture.text ++ "-" ++ triple.os.text

def pointerSize (triple : Triple) : Nat := triple.architecture.pointerSize

def isWindows (triple : Triple) : Bool := triple.os == .windows

end Triple

end CallLowering
