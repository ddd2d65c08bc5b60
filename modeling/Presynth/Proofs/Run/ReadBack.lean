import Presynth.Proofs.Archive.Codec
import Presynth.Proofs.Json.NumberText
import Presynth.Proofs.Json.NumberValue
import Presynth.Proofs.Run.Calibration
import Presynth.Proofs.Run.Task
import Presynth.Proofs.Slack.Sample
import Presynth.Proofs.Technology.Overlaid
/-!
# Written vectors read back

A vector is read back number by number, as its numbers are when they stand alone. A double that is
not finite is written as null, which is no number, and then nothing of the vector can be read.

What was read from a file is finite, and so is what a calibration chose from numbers that it had
checked. The features of area and timing are written as they were computed, and the power of a
module as it was given.

Main statements: `vectorOf?_vectorText` and `Task.readVectorOfLength_outcome`.
-/

namespace Presynth.Run

/-! ### Single vectors -/

/-- A double is read back from its text. -/
def ReadsBack (x : Float) : Prop := scalarOf? (Exchange.write x) = some x

variable {files : FileTree} {path : Path} {values : List Float}

/-- What is not finite is written as null. -/
theorem scalarOf?_write_of_not_finite {x : Float} (h : x.isFinite = false) :
    scalarOf? (Exchange.write x) = none := by
  have hnull : Exchange.write x = "null" := by
    show (Decimal.exchangeText? x).getD "null" = "null"
    unfold Decimal.exchangeText?
    split
    · rename_i b hb
      rw [Double.isFinite_iff_reading.mpr ⟨b, hb⟩] at h
      cases h
    · rfl
  rw [hnull]
  rfl

/-- The items of a vector stand for what they are read as alone. -/
theorem exists_items (values : List Float) : ∃ vs : List Json,
    List.Forall₂ (fun text v => Json.StandsFor text.toList v) (values.map Exchange.write) vs ∧
      vs.mapM Exchange.read? = values.mapM fun x => scalarOf? (Exchange.write x) := by
  induction values with
  | nil => exact ⟨[], .nil, rfl⟩
  | cons x values ih =>
      obtain ⟨vs, hvs, hread⟩ := ih
      obtain ⟨v, hv⟩ := Json.exists_standsFor_float x
      refine ⟨v :: vs, .cons hv hvs, ?_⟩
      have hx : scalarOf? (Exchange.write x) = Exchange.read? v := by
        show (Json.parse? (Json.Printer.float x)).bind Exchange.read? = _
        rw [hv.parse?_eq]
        rfl
      rw [List.mapM_cons, List.mapM_cons, hread, hx]

/-- A vector is read back number by number. -/
theorem vectorOf?_vectorText (values : List Float) :
    vectorOf? (vectorText values) = values.mapM fun x => scalarOf? (Exchange.write x) := by
  obtain ⟨vs, hvs, hread⟩ := exists_items values
  show (Json.parse? (Json.Printer.array (values.map Exchange.write))).bind Exchange.read? = _
  rw [Json.parse?_array hvs, ← hread]
  rfl

/-- Numbers that are read back one by one are read back together, and one that is not finite spoils
them all. -/
theorem mapM_scalarOf? (h : ∀ x ∈ values, x.isFinite = true → ReadsBack x) :
    (values.mapM fun x => scalarOf? (Exchange.write x)) =
      if values.all Float.isFinite then some values else none := by
  induction values with
  | nil => rfl
  | cons x values ih =>
      rw [List.forall_mem_cons] at h
      rw [List.mapM_cons, ih h.2, List.all_cons]
      cases hx : x.isFinite with
      | false =>
          rw [scalarOf?_write_of_not_finite hx]
          rfl
      | true =>
          rw [h.1 hx]
          cases values.all Float.isFinite <;> rfl

/-- A vector is read back from its file if all its numbers are finite, and not at all otherwise. -/
theorem readVectorOfLength_of_read
    (hread : files.read path = .ok (Archive.utf8 (vectorText values)))
    (h : ∀ x ∈ values, x.isFinite = true → ReadsBack x) :
    readVectorOfLength files path values.length =
      if values.all Float.isFinite then .ok values else .error (.malformed path) := by
  have htext : files.readText path = .ok (vectorText values) := by
    unfold FileTree.readText
    rw [hread]
    simp only [Archive.ofUtf8?_utf8]
  unfold readVectorOfLength readVector readValue
  simp only [htext, vectorOf?_vectorText, mapM_scalarOf? h]
  cases values.all Float.isFinite with
  | true => simp
  | false => simp

/-! ### Numbers that were read -/

/-- No number in a text is read as infinite; one that is too large is refused. -/
theorem isFinite_of_read? {v : Json} {x : Float} (h : Exchange.read? v = some x) :
    x.isFinite = true := by
  cases v with
  | number n => exact Json.Number.isFinite_of_toFloat? h
  | _ => cases h

theorem isFinite_of_mapM_read? {items : List Json} (h : items.mapM Exchange.read? = some values) :
    ∀ x ∈ values, x.isFinite = true := by
  induction items generalizing values with
  | nil =>
      cases h
      simp
  | cons v items ih =>
      rw [List.mapM_cons] at h
      obtain ⟨x, hx, hrest⟩ := Option.bind_eq_some_iff.mp h
      obtain ⟨xs, hxs, hvalues⟩ := Option.bind_eq_some_iff.mp hrest
      cases hvalues
      rw [List.forall_mem_cons]
      exact ⟨isFinite_of_read? hx, ih hxs⟩

/-- What was read from a file was read from some text. -/
theorem of_readValue_eq_ok {β : Type} {parse? : String → Option β} {x : β}
    (h : readValue parse? files path = .ok x) : ∃ text, parse? text = some x := by
  unfold readValue at h
  split at h
  · cases h
  · rename_i text _
    split at h
    · rename_i hparse
      cases h
      exact ⟨text, hparse⟩
    · cases h

theorem isFinite_of_readScalar {x : Float} (h : readScalar files path = .ok x) :
    x.isFinite = true := by
  obtain ⟨text, htext⟩ := of_readValue_eq_ok h
  obtain ⟨v, -, hv⟩ := Option.bind_eq_some_iff.mp htext
  exact isFinite_of_read? hv

/-- A vector of finite numbers is all that reading can give, whatever the file holds. -/
theorem isFinite_of_readVectorOfLength {length : Nat}
    (h : readVectorOfLength files path length = .ok values) :
    ∀ x ∈ values, x.isFinite = true := by
  unfold readVectorOfLength at h
  split at h
  · cases h
  · rename_i found hfound
    split at h
    · cases h
      obtain ⟨text, htext⟩ := of_readValue_eq_ok hfound
      obtain ⟨v, -, hv⟩ := Option.bind_eq_some_iff.mp htext
      cases v with
      | array items => exact isFinite_of_mapM_read? hv
      | _ => cases hv
    · cases h

/-- The power features are finite, but for the power that was given. -/
theorem ends_powerFeatures {featureDir toggleDir : Path} {key : DesignKey} {modulePower : Float} :
    (powerFeatures files featureDir toggleDir key modulePower).Ends
      (fun found => (∀ x ∈ found.1, x.isFinite = true) ∧ found.2.toggleRateSum.isFinite = true ∧
        found.2.toggleRateAvg.isFinite = true ∧ found.2.modulePower = modulePower)
      (fun _ => True) := by
  unfold powerFeatures
  refine .bind (.orFail (fun _ h => isFinite_of_readVectorOfLength h) fun _ _ => trivial)
    fun vector hvector => ?_
  refine .bind (.orFail (fun _ h => trivial) fun _ _ => trivial) fun area _ => ?_
  refine .bind (.orFail (fun _ h => isFinite_of_readScalar h) fun _ _ => trivial) fun sum hsum => ?_
  refine .bind (.orFail (fun _ h => isFinite_of_readScalar h) fun _ _ => trivial) fun avg havg => ?_
  exact .pure ⟨hvector, hsum, havg, rfl⟩

/-! ### Numbers that were checked -/

/-- A calibration takes its numbers from a sample that it has checked. -/
theorem isFinite_of_calibrate {policy : CalibrationPolicy Float} {seqBits : Nat}
    {predicted : List Float} {c : Calibration Float}
    (h : policy.calibrate seqBits predicted = .ok c) :
    c.calibratedWns.isFinite = true ∧ ∀ x ∈ c.spread.toVector, x.isFinite = true := by
  obtain ⟨⟨-, hsample⟩, rfl⟩ := CalibrationPolicy.calibrate_eq_ok_iff.mp h
  generalize predicted.take (policy.sampleSize seqBits) = sample at hsample
  have hpick (i : Nat) : ((sortedDown sample).getD i 0).isFinite = true := by
    rw [List.getD_eq_getElem?_getD]
    cases hi : (sortedDown sample)[i]? with
    | none => rfl
    | some x => exact hsample x ((sortedDown_perm sample).mem_iff.mp (List.mem_of_getElem? hi))
  refine ⟨hpick _, ?_⟩
  simp only [Calibration.ofSorted, Spread.toVector, List.forall_mem_cons]
  exact ⟨hpick _, hpick _, hpick _, List.forall_mem_nil _⟩

/-! ### All runs -/

namespace Task

/-- The vectors that a run writes, with their files. -/
def vectors : (task : Task) → task.Found → List (Path × List Float)
  | census .., _ => []
  | area _ outDir key _, f => [(outDir.below key.areaVectorFile, f.toVector)]
  | timing _ outDir key _ _ _, (summary, _) =>
    [(outDir.below key.timingVectorFile, summary.toVector)]
  | power _ _ outDir key _, (vector, f) =>
    [(outDir.below key.powerVectorFile,
      vector ++ [f.toggleRateSum, f.toggleRateAvg, f.modulePower])]
  | calibration places key _, found =>
    [(places.slackPath key, [found.calibration.calibratedWns]),
      (places.spreadPath key, found.calibration.spread.toVector)]

/-- The numbers among them that may be other than finite: features as they were computed, and the
power of a module as it was given. -/
def unchecked : (task : Task) → task.Found → List Float
  | census .., _ => []
  | area .., f => f.toVector
  | timing .., (summary, _) => summary.toVector
  | power _ _ _ _ modulePower, _ => [modulePower]
  | calibration .., _ => []

variable {task : Task} {found : task.Found}

/-- One vector alone is not in the way of any other. -/
theorem read_of_publish_vector {after : FileTree}
    (h : Output.publish [.vector path values] files = (.ok (), after)) :
    after.read path = .ok (Archive.utf8 (vectorText values)) :=
  Output.read_of_publish (by simp [Output.isPlaced_vector]) (List.pairwise_singleton _ _) h _
    (List.mem_singleton_self _)

/-- All vectors of a run are in their files. -/
theorem read_vectors (h : (task.outcome files).result = .ok found) :
    ∀ v ∈ task.vectors found,
      (task.outcome files).files.read v.1 = .ok (Archive.utf8 (vectorText v.2)) := by
  cases task with
  | census => exact fun v hv => absurd hv List.not_mem_nil
  | area =>
      intro v hv
      obtain rfl := List.mem_singleton.mp hv
      exact read_of_publish_vector (Analysis.of_run_eq_ok h).2
  | timing =>
      obtain ⟨summary, paths⟩ := found
      intro v hv
      obtain rfl := List.mem_singleton.mp hv
      exact read_of_publish_vector (Analysis.of_run_eq_ok h).2
  | power =>
      obtain ⟨vector, f⟩ := found
      intro v hv
      obtain rfl := List.mem_singleton.mp hv
      exact read_of_publish_vector (Analysis.of_run_eq_ok h).2
  | calibration places key policy =>
      obtain ⟨hslack, hspread⟩ := holds_of_result_eq_ok h
      exact List.forall_mem_cons.mpr ⟨hslack, List.forall_mem_singleton.mpr hspread⟩

/-- The vectors of a run are finite if what was not checked is. -/
theorem all_isFinite_vectors (h : (task.outcome files).result = .ok found) :
    ∀ v ∈ task.vectors found,
      v.2.all Float.isFinite = (task.unchecked found).all Float.isFinite := by
  -- what the tasks check differs, so the case split is on the task
  cases task with
  | census => exact fun v hv => absurd hv List.not_mem_nil
  | area =>
      intro v hv
      obtain rfl := List.mem_singleton.mp hv
      rfl
  | timing =>
      obtain ⟨summary, paths⟩ := found
      intro v hv
      obtain rfl := List.mem_singleton.mp hv
      rfl
  | power =>
      obtain ⟨vector, f⟩ := found
      intro v hv
      obtain rfl := List.mem_singleton.mp hv
      obtain ⟨hvector, hsum, havg, hpower⟩ :=
        ends_powerFeatures.of_finds (Analysis.of_run_eq_ok h).1
      have hread : vector.all Float.isFinite = true := List.all_eq_true.mpr hvector
      simp only at hsum havg hpower
      simp [unchecked, hread, hsum, havg, hpower]
  | calibration places key policy =>
      obtain ⟨predicted, hcalibrate⟩ :=
        ends_calibratedDesign.of_finds (Analysis.of_run_eq_ok h).1
      obtain ⟨hslack, hspread⟩ := isFinite_of_calibrate hcalibrate
      refine List.forall_mem_cons.mpr ⟨?_, List.forall_mem_singleton.mpr ?_⟩
      · exact List.all_eq_true.mpr (List.forall_mem_singleton.mpr hslack)
      · exact List.all_eq_true.mpr hspread

/-- The vectors of a run that succeeds are read back with their lengths and numbers if all numbers
that were not checked are finite. Otherwise their files cannot be read. -/
theorem readVectorOfLength_outcome (task : Task) (files : FileTree) {found : task.Found}
    (h : (task.outcome files).result = .ok found) {v : Path × List Float}
    (hmem : v ∈ task.vectors found) (hback : ∀ x ∈ v.2, x.isFinite = true → ReadsBack x) :
    readVectorOfLength (task.outcome files).files v.1 v.2.length =
      if (task.unchecked found).all Float.isFinite then .ok v.2 else .error (.malformed v.1) := by
  rw [← all_isFinite_vectors h v hmem]
  exact readVectorOfLength_of_read (read_vectors h v hmem) hback

/-- The vectors of a run, if it succeeds. -/
def vectors? (task : Task) (files : FileTree) : Option (List (Path × List Float)) :=
  (task.outcome files).result.toOption.map task.vectors

theorem exists_of_vectors? {vectors : List (Path × List Float)}
    (h : task.vectors? files = some vectors) :
    ∃ found, (task.outcome files).result = .ok found ∧ task.vectors found = vectors :=
  exists_of_toOption_map h

/-- The power of one design, with a given power that is finite. -/
theorem readVectorOfLength_outcome_measured : ∃ found,
    ((powerOf "uart" 0.5).outcome measured).result = .ok found ∧
      readVectorOfLength ((powerOf "uart" 0.5).outcome measured).files
          (.ofText "f/new/power/uart_sog_vec_pwr.json") 17 =
        .ok (List.replicate 16 0.0 ++ [0.5]) := by
  have hvectors : (powerOf "uart" 0.5).vectors? measured =
      some [(.ofText "f/new/power/uart_sog_vec_pwr.json", List.replicate 16 0.0 ++ [0.5])] := by
    decide +kernel
  have hback : ∀ x ∈ List.replicate 16 0.0 ++ [0.5],
      scalarOf? (Exchange.write x) = some x := by decide +kernel
  obtain ⟨found, hfound, hvector⟩ := exists_of_vectors? hvectors
  have hread := readVectorOfLength_outcome (powerOf "uart" 0.5) measured hfound
    (hvector ▸ List.mem_singleton_self _) fun x hx _ => hback x hx
  exact ⟨found, hfound, hread⟩

/-- A run can succeed and leave a vector that cannot be read. -/
theorem readVectorOfLength_outcome_undefined : ∃ found,
    ((powerOf "uart" (0.0 / 0.0)).outcome measured).result = .ok found ∧
      ∃ v ∈ (powerOf "uart" (0.0 / 0.0)).vectors found,
        readVectorOfLength ((powerOf "uart" (0.0 / 0.0)).outcome measured).files v.1 v.2.length ≠
          .ok v.2 := by
  have hvectors : (powerOf "uart" (0.0 / 0.0)).vectors? measured =
      some [(.ofText "f/new/power/uart_sog_vec_pwr.json",
        List.replicate 16 0.0 ++ [0.0 / 0.0])] := by decide +kernel
  have hread : readVectorOfLength ((powerOf "uart" (0.0 / 0.0)).outcome measured).files
      (.ofText "f/new/power/uart_sog_vec_pwr.json") 17 =
        .error (.malformed (.ofText "f/new/power/uart_sog_vec_pwr.json")) := by decide +kernel
  obtain ⟨found, hfound, hvector⟩ := exists_of_vectors? hvectors
  refine ⟨found, hfound, _, hvector ▸ List.mem_singleton_self _, fun hok => ?_⟩
  cases hread.symm.trans hok

end Task

end Presynth.Run
