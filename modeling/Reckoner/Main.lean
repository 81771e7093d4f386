import Reckoner.CommandLine
import Reckoner.Elementary.Rounded

namespace Reckoner

partial def readAll (stream : IO.FS.Stream) (sofar : ByteArray) : IO ByteArray := do
  let piece ← stream.read 65536
  if piece.isEmpty then return sofar else readAll stream (sofar ++ piece)

/-- What a run with these options may ask of the folder. The folders on the way are taken to be there. -/
def gather (options : Options) : IO Folder := do
  let input := expandHome (options.inputPath.getD "")
  let output := expandHome (options.outputPath.getD "")
  let way (path : String) := (Place.startOf path).along (pathNames path)
  let others := (way input).dropLast ++ (way output).dropLast
  let files ← if input.isEmpty then pure [] else
    try
      let bytes ← IO.FS.readBinFile input
      pure ((way input).getLast?.toList.map fun place => (place.text, bytes))
    catch _ => pure []
  return ⟨files, standardFolders ++ others.map Place.text⟩

def giveUp (message : String) : IO UInt32 := do
  IO.eprintln message
  return 1

def perform (options : Options) : IO UInt32 := do
  let folder ← gather options
  let wantsInput := (options.inputPath.getD "").isEmpty && options.expressions.isEmpty
  let bytes ← if wantsInput then readAll (← IO.getStdin) ByteArray.empty else pure ByteArray.empty
  match runProgram {} options ((String.fromUTF8? bytes).getD "") folder with
  | .error failure => giveUp failure.message
  | .ok report =>
    IO.print report.output
    match report.saved with
    | some (place, text) =>
      try
        IO.FS.writeFile place.text text
        return report.exitCode.toUInt32
      catch _ => giveUp (SaveError.noFolder (parentOf place.text)).message
    | none => return report.exitCode.toUInt32

end Reckoner

def main (arguments : List String) : IO UInt32 := do
  match Reckoner.Options.ofArguments arguments with
  | .error .help =>
    IO.println "usage: reckoner [--input_path FILE] [--column NAME] [--output_path FILE] [--strict] [expression ...]"
    return 0
  | .error .misuse => return 2
  | .ok options => Reckoner.perform options
