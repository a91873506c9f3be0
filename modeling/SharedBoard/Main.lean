import SharedBoard.CommandLine

/-!
The script player as a program. It prints a board, or reports on standard error what is wrong and
exits with 1, and with 2 when the arguments are wrong.
-/

namespace SharedBoard.Player

/-- New random ids: a random start, counted up, with the marks of the fourth version. -/
def freshIds (seed : ByteArray) (n : Nat) : Uuid :=
  let start := seed.toList.foldl (fun acc byte => 256 * acc + byte.toNat) 0
  let bits := BitVec.ofNat 128 (start + n)
  let version : BitVec 128 := BitVec.ofNat 128 (0xF <<< 76)
  let variant : BitVec 128 := BitVec.ofNat 128 (0x3 <<< 62)
  ⟨(bits &&& ~~~version &&& ~~~variant) ||| BitVec.ofNat 128 (0x4 <<< 76) |||
    BitVec.ofNat 128 (0x2 <<< 62)⟩

def readEnvironment (names : List String) : IO (String → Option String) := do
  let values ← names.mapM fun name => do return (name, ← IO.getEnv name)
  return fun name => (values.lookup name).join

def readScript (path : String) : IO String := do
  let bytes ←
    if path = CommandLine.standardInput then (← IO.getStdin).readBinToEnd
    else IO.FS.readBinFile path
  match String.fromUTF8? bytes with
  | some text => return text
  | none => throw (IO.userError "stream did not contain valid UTF-8")

def play (path : String) (layer : Script.Layer) : IO UInt32 := do
  let text ← try readScript path catch e =>
    IO.eprintln ("failed to read " ++ path ++ ": " ++ toString e)
    return 1
  let env ← readEnvironment Settings.variableNames
  let seed ← IO.getRandomBytes 16
  match Script.run (freshIds seed) (Settings.ofEnvironment env) layer text with
  | .ok board =>
    IO.print board
    return 0
  | .error bad =>
    IO.eprintln ("line " ++ toString bad.number ++ ": invalid event: " ++ bad.fault.message)
    return 1

end SharedBoard.Player

def main (args : List String) : IO UInt32 :=
  match SharedBoard.CommandLine.parse args with
  | none => do
    IO.eprintln SharedBoard.CommandLine.usage
    return 2
  | some .help => do
    IO.print SharedBoard.CommandLine.help
    return 0
  | some (.play path layer) => SharedBoard.Player.play path layer
