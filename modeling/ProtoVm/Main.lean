import ProtoVm.CommandLine

open ProtoVm

def main (args : List String) : IO UInt32 := do
  let report := CommandLine.answer args
  for line in report.diagnostics do IO.eprintln line
  IO.print report.output
  return report.exitCode
