import FunMips.CommandLine

/-!
# The compiler as a command
-/

namespace FunMips

/-- All bytes of a stream. -/
partial def readAll (stream : IO.FS.Stream) (bytes : ByteArray) : IO ByteArray := do
  let chunk ← stream.read 65536
  if chunk.isEmpty then return bytes else readAll stream (bytes ++ chunk)

end FunMips

open FunMips CommandLine in
/-- Runs the command; the standard input is read only if the arguments ask for it. -/
def main (args : List String) : IO UInt32 := do
  let request := Request.ofArgs args
  let input ←
    if request = .standardInput then readAll (← IO.getStdin) ByteArray.empty
    else pure ByteArray.empty
  let answer := reply request input
  (← IO.getStdout).putStr answer.output
  (← IO.getStderr).putStr answer.errors
  return answer.code
