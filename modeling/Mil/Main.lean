import Mil.Command.Run

/-! The program: reads the files that its command line names, and writes what the command leaves. -/

namespace Mil.Command

def readFolder (names : List String) : IO Folder := do
  let mut files : Folder := []
  for name in names do
    try
      files := files ++ [(name, ← IO.FS.readFile name)]
    catch _ => pure ()
  return files

end Mil.Command

/-- Runs the command line. -/
def main (args : List String) : IO UInt32 := do
  let files ← Mil.Command.readFolder (Mil.Command.filesRead args)
  let report := Mil.Command.run files args
  for (name, text) in report.written do
    IO.FS.writeFile name text
  (← IO.getStdout).putStr report.out
  (← IO.getStderr).putStr report.err
  return if report.ok then 0 else 1
