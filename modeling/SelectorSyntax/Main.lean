import SelectorSyntax.Check.Run

open SelectorSyntax.Check

/-- Reads to the end of the standard input. -/
def readStandardInput : IO ByteArray := do
  let stdin ← IO.getStdin
  let mut bytes := ByteArray.empty
  repeat
    let chunk ← stdin.read 65536
    if chunk.isEmpty then break
    bytes := bytes ++ chunk
  return bytes

def main (args : List String) : IO UInt32 := do
  let input ← if readsInput args then readStandardInput else pure ByteArray.empty
  let outcome := run args input
  IO.print outcome.output
  for n in outcome.notices do
    IO.eprintln n.text
  return UInt32.ofNat outcome.exitCode
