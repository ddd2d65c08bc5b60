import Presynth.Proofs.Numbers.Words
import Presynth.Proofs.Run.ReadBack
import Presynth.Proofs.Technology.Overlaid
/-!
# Power features after area features

The power run reads the area vector that an area run has written. Its numbers pass through it
untouched, whatever they are; the counts among them are read as counts besides, which gives back
those of the area run, as long as these are exact as doubles. So the vector that is written and the
features that are found say the same.

Main statements: `AreaFeatures.ofVector?_toVector`, `Run.power_of_result_eq_ok` and
`Run.power_of_area`.
-/

namespace Presynth

/-! ### Vectors of features -/

namespace AreaFeatures

/-- The counts that are part of the vector. -/
def counts (f : AreaFeatures Float) : List ℕ :=
  [f.seqBits, f.fanoutSum, f.ioBits, f.andCount, f.orCount, f.notCount, f.xorCount, f.muxCount]

/-- Counts of no more than 53 bits are read as they were written; the bits of logic are lost. -/
theorem ofVector?_toVector {f : AreaFeatures Float} (h : ∀ n ∈ f.counts, n ≤ 2 ^ 53) :
    ofVector? f.toVector = some { f with combBits := 0 } := by
  have hword : ∀ n ∈ f.counts, Quantity.toWord (n : Float) = n :=
    fun n hn => Double.toWord_ofNat (h n hn)
  simp only [counts, List.forall_mem_cons] at hword
  obtain ⟨hseq, hfanout, hio, hand, hor, hnot, hxor, hmux, -⟩ := hword
  simp only [toVector, ofVector?, hseq, hfanout, hio, hand, hor, hnot, hxor, hmux]

/-- The bits of logic are no part of the vector. -/
theorem toVector_combBits (f : AreaFeatures Float) (n : ℕ) :
    ({ f with combBits := n } : AreaFeatures Float).toVector = f.toVector := rfl

end AreaFeatures

namespace Run

variable {files : FileTree} {featureDir toggleDir outDir : Path} {key : DesignKey}
  {modulePower : Float}

/-! ### What a power run finds -/

/-- The area vector that was read, what was read of it, and the three numbers beside it. -/
structure FindsPower (files : FileTree) (featureDir toggleDir : Path) (key : DesignKey)
    (modulePower : Float) (vector : List Float) (p : PowerFeatures Float) : Prop where
  read : readVectorOfLength files (featureDir.below key.areaVectorFile)
    AreaFeatures.vectorLength = .ok vector
  area : AreaFeatures.ofVector? vector = some p.area
  toggleRateSum : readScalar files (toggleDir.below key.toggleSumFile) = .ok p.toggleRateSum
  toggleRateAvg : readScalar files (toggleDir.below key.toggleAverageFile) = .ok p.toggleRateAvg
  given : p.modulePower = modulePower

/-- The features are those of the files that were read, each read by itself. -/
theorem ends_powerFeatures_findsPower :
    (powerFeatures files featureDir toggleDir key modulePower).Ends
      (fun found => FindsPower files featureDir toggleDir key modulePower found.1 found.2)
      (fun _ => True) := by
  unfold powerFeatures
  refine .bind (.orFail (fun _ h => h) fun _ _ => trivial) fun vector hvector => ?_
  refine .bind (.orFail (fun area h => ?read) fun _ _ => trivial)
    fun area (harea : AreaFeatures.ofVector? vector = some area) => ?_
  case read =>
    split at h
    · rename_i hsome
      cases h
      exact hsome
    · cases h
  refine .bind (.orFail (fun _ h => h) fun _ _ => trivial) fun sum hsum => ?_
  refine .bind (.orFail (fun _ h => h) fun _ _ => trivial) fun avg havg => ?_
  exact .pure ⟨hvector, harea, hsum, havg, rfl⟩

/-- A power run that succeeds leaves the vector as it was read with three more numbers. -/
theorem power_of_result_eq_ok {vector : List Float} {p : PowerFeatures Float}
    (h : (power files featureDir toggleDir outDir key modulePower).result = .ok (vector, p)) :
    FindsPower files featureDir toggleDir key modulePower vector p ∧
      (power files featureDir toggleDir outDir key modulePower).files.read
          (outDir.below key.powerVectorFile) =
        .ok (Archive.utf8 (vectorText
          (vector ++ [p.toggleRateSum, p.toggleRateAvg, modulePower]))) := by
  obtain ⟨hfinds, hpublish⟩ := Analysis.of_run_eq_ok h
  have hspec := ends_powerFeatures_findsPower.of_finds hfinds
  have hread := Task.read_of_publish_vector hpublish
  dsimp only at hread hspec
  rw [hspec.given] at hread
  exact ⟨hspec, hread⟩

/-! ### Area and power -/

/-- The area vector of a run is read by the next, if its numbers are read back. -/
theorem readVectorOfLength_of_area {netlistDir areaDir : Path} {tech : Technology Float}
    {after : FileTree} {f : AreaFeatures Float} {vector : List Float}
    (harea : (area files netlistDir areaDir key tech).result = .ok f)
    (hback : ∀ x ∈ f.toVector, x.isFinite = true → ReadsBack x)
    (hsame : after.read (featureDir.below key.areaVectorFile) =
      (area files netlistDir areaDir key tech).files.read (areaDir.below key.areaVectorFile))
    (hvector : readVectorOfLength after (featureDir.below key.areaVectorFile)
      AreaFeatures.vectorLength = .ok vector) : vector = f.toVector := by
  have hwritten := Task.read_of_publish_vector (Analysis.of_run_eq_ok harea).2
  have hread := readVectorOfLength_of_read (hsame.trans hwritten) hback
  have hvector' := hvector.symm.trans hread
  split at hvector'
  · exact Except.ok.inj hvector'
  · cases hvector'

/-- A power run that follows an area run finds the area features again but for the bits of logic,
and leaves their vector with three more numbers, which is also the vector of what it finds. Any
fourteen numbers are left as they were read. -/
theorem power_of_area (key : DesignKey) (modulePower : Float) (featureDir toggleDir outDir : Path)
    (after : FileTree) (vector : List Float) (p : PowerFeatures Float)
    (hpower : (power after featureDir toggleDir outDir key modulePower).result = .ok (vector, p)) :
    (∀ (files : FileTree) (netlistDir areaDir : Path) (tech : Technology Float)
        (f : AreaFeatures Float),
      (area files netlistDir areaDir key tech).result = .ok f →
      (∀ n ∈ f.counts, n ≤ 2 ^ 53) →
      (∀ x ∈ f.toVector, x.isFinite = true → ReadsBack x) →
      after.read (featureDir.below key.areaVectorFile) =
        (area files netlistDir areaDir key tech).files.read (areaDir.below key.areaVectorFile) →
      p.area = { f with combBits := 0 } ∧
        p.toVector = f.toVector ++ [p.toggleRateSum, p.toggleRateAvg, modulePower] ∧
        (power after featureDir toggleDir outDir key modulePower).files.read
          (outDir.below key.powerVectorFile) = .ok (Archive.utf8 (vectorText p.toVector))) ∧
    (∀ v, readVectorOfLength after (featureDir.below key.areaVectorFile)
        AreaFeatures.vectorLength = .ok v →
      (power after featureDir toggleDir outDir key modulePower).files.read
          (outDir.below key.powerVectorFile) =
        .ok (Archive.utf8 (vectorText (v ++ [p.toggleRateSum, p.toggleRateAvg, modulePower])))) ∧
    readScalar after (toggleDir.below key.toggleSumFile) = .ok p.toggleRateSum ∧
    readScalar after (toggleDir.below key.toggleAverageFile) = .ok p.toggleRateAvg ∧
    p.modulePower = modulePower := by
  obtain ⟨hfinds, hwritten⟩ := power_of_result_eq_ok hpower
  refine ⟨fun files netlistDir areaDir tech f harea hcounts hback hsame => ?_, fun v hv => ?_,
    hfinds.toggleRateSum, hfinds.toggleRateAvg, hfinds.given⟩
  · -- what was read is what the area run wrote, and the counts in it survive as doubles
    obtain rfl := readVectorOfLength_of_area harea hback hsame hfinds.read
    have hfeatures : p.area = { f with combBits := 0 } :=
      Option.some.inj (hfinds.area.symm.trans (AreaFeatures.ofVector?_toVector hcounts))
    have hvector : p.toVector = f.toVector ++ [p.toggleRateSum, p.toggleRateAvg, modulePower] := by
      rw [PowerFeatures.toVector, hfeatures, AreaFeatures.toVector_combBits, hfinds.given]
    exact ⟨hfeatures, hvector, hvector ▸ hwritten⟩
  · obtain rfl : v = vector := Except.ok.inj (hv.symm.trans hfinds.read)
    exact hwritten

/-- A register of three bits that holds its value. -/
def registerOnly : Netlist Float where
  registry := .ofList [("r", ⟨"r", .Reg, some 3, none, none, none, 0.5⟩)]
  fanout := .ofList [("r", ["r"])]

/-- The toggle rates of a design, and an area vector that no area run has written. -/
def toggled : FileTree where
  entries :=
    [("f", .directory [("uart_sog_vec_area.json",
        .file (Archive.utf8 "[-1,0.5,1e300,0,0,0,0,0,-2,0,0,0,0,0]"))]),
      ("t", .directory [("uart_tc_avr_all.json", .file (Archive.utf8 "0.25")),
        ("uart_tc_sum_all.json", .file (Archive.utf8 "0.5"))])]

/-- The power run on that design, with the files as they are. -/
def toggledPower (files : FileTree) : RunOutcome (List Float × PowerFeatures Float) :=
  power files (.ofText "f") (.ofText "t") (.ofText "o") ⟨"uart", "sog"⟩ 0.75

/-- The area run on a netlist of that design. -/
def toggledArea : RunOutcome (AreaFeatures Float) :=
  area (Archive.writeNetlist toggled (.ofText "g") ⟨"uart", "sog"⟩ registerOnly).2
    (.ofText "g") (.ofText "f") ⟨"uart", "sog"⟩ .builtin

/-- Both ways to an area vector: of an area run on one register, and of a file that no area run
would write. -/
theorem power_of_area_register :
    (∃ f vector p, toggledArea.result = .ok f ∧ f.seqBits = 3 ∧
      (toggledPower toggledArea.files).result = .ok (vector, p) ∧
      p.area = { f with combBits := 0 } ∧ p.toVector = f.toVector ++ [0.5, 0.25, 0.75]) ∧
    (toggledPower toggled).files.read (.ofText "o/uart_sog_vec_pwr.json") =
      .ok (Archive.utf8 (vectorText
        ([-1.0, 0.5, 1e300, 0, 0, 0, 0, 0, -2.0, 0, 0, 0, 0, 0] ++ [0.5, 0.25, 0.75]))) := by
  have hfound (files : FileTree) (h : ((toggledPower files).result.toOption.map fun found =>
      (found.2.toggleRateSum, found.2.toggleRateAvg)) = some (0.5, 0.25)) :
      ∃ vector p, (toggledPower files).result = .ok (vector, p) ∧
        p.toggleRateSum = 0.5 ∧ p.toggleRateAvg = 0.25 := by
    obtain ⟨⟨vector, p⟩, hresult, hp⟩ := exists_of_toOption_map h
    exact ⟨vector, p, hresult, Prod.mk.inj hp⟩
  constructor
  · have harea : (toggledArea.result.toOption.map fun f => decide (f.seqBits = 3 ∧
        (∀ n ∈ f.counts, n ≤ 2 ^ 53) ∧ ∀ x ∈ f.toVector, scalarOf? (Exchange.write x) = some x)) =
        some true := by decide +kernel
    obtain ⟨f, harea, hf⟩ := exists_of_toOption_map harea
    obtain ⟨hbits, hcounts, hback⟩ := of_decide_eq_true hf
    obtain ⟨vector, p, hresult, hsum, havg⟩ := hfound toggledArea.files (by decide +kernel)
    obtain ⟨hfeatures, hvector, -⟩ := (power_of_area ⟨"uart", "sog"⟩ 0.75 (.ofText "f")
      (.ofText "t") (.ofText "o") _ vector p hresult).1 _ (.ofText "g") (.ofText "f") .builtin f
      harea hcounts (fun x hx _ => hback x hx) rfl
    rw [hsum, havg] at hvector
    exact ⟨f, vector, p, harea, hbits, hresult, hfeatures, hvector⟩
  · obtain ⟨vector, p, hresult, hsum, havg⟩ := hfound toggled (by decide +kernel)
    have hwritten := (power_of_area ⟨"uart", "sog"⟩ 0.75 (.ofText "f") (.ofText "t")
      (.ofText "o") toggled vector p hresult).2.1
      [-1.0, 0.5, 1e300, 0, 0, 0, 0, 0, -2.0, 0, 0, 0, 0, 0] (by decide +kernel)
    rw [hsum, havg] at hwritten
    exact hwritten

end Run

end Presynth
