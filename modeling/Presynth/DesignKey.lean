/-!
# Names of the files of a design

A design is analysed under a command name, and both together name its files. What is measured by
other tools depends on the design alone and is named by it alone.
-/

namespace Presynth

/-- A design and the command under which it was elaborated. -/
structure DesignKey where
  design : String
  cmd : String
  deriving DecidableEq, Repr

namespace DesignKey

/-- The common start of the names of all files of one analysis. -/
def stem (key : DesignKey) : String := key.design ++ "_" ++ key.cmd

/-- The file of the fanout lists. -/
def adjacencyFile (key : DesignKey) : String := key.stem ++ ".graph.bin"

/-- The file of the node registry. -/
def registryFile (key : DesignKey) : String := key.stem ++ "_node_dict.bin"

/-- The area feature vector. -/
def areaVectorFile (key : DesignKey) : String := key.stem ++ "_vec_area.json"

/-- The timing feature vector. -/
def timingVectorFile (key : DesignKey) : String := key.stem ++ "_vec_timing.json"

/-- The power feature vector. -/
def powerVectorFile (key : DesignKey) : String := key.stem ++ "_vec_pwr.json"

/-- The drawing of the netlist. -/
def dotFile (key : DesignKey) : String := key.stem ++ ".dot"

/-- The sum of the toggle rates. -/
def toggleSumFile (key : DesignKey) : String := key.design ++ "_tc_sum_all.json"

/-- The average of the toggle rates. -/
def toggleAverageFile (key : DesignKey) : String := key.design ++ "_tc_avr_all.json"

/-- The calibrated worst slack. -/
def slackFile (key : DesignKey) : String := key.design ++ "_rf.json"

/-- The spread of the calibrated slack. -/
def slackSpreadFile (key : DesignKey) : String := key.design ++ "_rf_mul.json"

/-- The timing report of a reference tool. -/
def referenceReportFile (key : DesignKey) : String := key.design ++ ".rpt"

end DesignKey

end Presynth
