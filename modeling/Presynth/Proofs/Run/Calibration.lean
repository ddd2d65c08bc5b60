import Presynth.Proofs.Run.Analysis
import Presynth.Run.Slack
import Presynth.Technology.Builtin
/-!
# What calibration leaves

A calibration run writes two files, the slack and then its spread, and there is nothing that takes
the slack back. So a run that succeeds leaves both, and a run that fails leaves both as they were,
with two exceptions. Where only the spread could not be written, the new slack stands beside the old
spread or none. And a file for which the store had no space is there with a beginning of its new
content, whatever it held before, since it is emptied when it is opened.

The outputs never get in each other's way, because their names have different endings. What the
analysis blames is never the spread, so a failure there tells that the slack was written.

Main statements: `Run.ends_calibratedDesign` and `Run.calibration_publishes`.
-/

namespace Presynth

/-! ### Names -/

namespace DesignKey

variable (key : DesignKey) (dir : Path)

/-- The endings tell the two outputs apart, whatever the design is called. -/
theorem endsIn_slackFile : (dir.below key.slackFile).EndsIn "_rf.json".toList :=
  dir.endsIn_below String.toList_append (by decide) (by decide)

theorem endsIn_slackSpreadFile : (dir.below key.slackSpreadFile).EndsIn "_rf_mul.json".toList :=
  dir.endsIn_below String.toList_append (by decide) (by decide)

variable {key dir} {dir' : Path}

/-- No path is that of a slack and that of a spread, also in different directories. -/
theorem below_slackFile_ne : dir.below key.slackFile ≠ dir'.below key.slackSpreadFile :=
  (key.endsIn_slackFile dir).ne (key.endsIn_slackSpreadFile dir') (by decide) (by decide)

/-- So a slack and a spread are never one file. -/
theorem apart_below_slackFile : (dir.below key.slackFile).Apart (dir'.below key.slackSpreadFile) :=
  (key.endsIn_slackFile dir).apart (key.endsIn_slackSpreadFile dir') (by decide) (by decide)

end DesignKey

/-! ### Both outputs -/

namespace Run

variable {files : FileTree} {places : CalibrationPlaces} {key : DesignKey}
  {policy : CalibrationPolicy Float}

/-- A value that cannot be read is missing or malformed. -/
theorem of_readValue_eq_error {β : Type} {parse? : String → Option β} {path : Path} {e : RunFault}
    (h : readValue parse? files path = .error e) :
    (∃ fault, e = .file path fault) ∨ e = .malformed path := by
  unfold readValue at h
  split at h
  · rename_i fault _
    cases h
    exact .inl ⟨fault, rfl⟩
  · split at h
    · cases h
    · cases h
      exact .inr rfl

/-- A reference report can fail only in being read; what is no slack in it is remarked on. -/
theorem ends_referenceSlacks {fails : RunFault → Prop} {path : Path} {limit : Nat}
    (h : ∀ fault, fails (.report path fault)) :
    (referenceSlacks files path limit).Ends (fun _ => True) fails :=
  .bind (.orFail (fun _ _ => trivial) fun fault _ => h fault) fun _ _ =>
    .bind (.remarkAll _) fun _ _ => .pure trivial

/-- A calibration that fails is one of slacks that cannot be used. -/
theorem ends_calibrated {fails : RunFault → Prop} {seqBits : Nat} {predicted : List Float}
    (h : ∀ cause, fails (.calibration cause)) :
    (calibrated seqBits predicted policy).Ends
      (fun c => policy.calibrate seqBits predicted = .ok c) fails :=
  .bind (.orFail (fun _ hc => hc) fun cause _ => h cause) fun _ hc =>
    .bind (.remark _) fun _ _ => .pure hc

/-- A calibration that is found is that of predicted slacks, and of all files only these are to
blame if they cannot be read. -/
theorem ends_calibratedDesign : (calibratedDesign files places key policy).Ends
    (fun found => ∃ predicted, policy.calibrate found.seqBits predicted = .ok found.calibration)
    (fun e => ∀ path fault, e = .file path fault →
      path = places.predicted.below key.slackFile) := by
  unfold calibratedDesign
  refine .bind (.orFail (fun _ _ => trivial) fun cause _ path fault h => ?_) fun registry _ => ?_
  · cases h
  refine .bind (.orFail (fun _ _ => trivial) fun e he path fault h => ?_) fun predicted _ => ?_
  · rcases of_readValue_eq_error he with ⟨fault', rfl⟩ | rfl
    · cases h
      rfl
    · cases h
  refine .bind (ends_calibrated fun cause path fault h => ?_) fun c hc => ?_
  · cases h
  cases places.reference with
  | none => exact .pure ⟨predicted, hc⟩
  | some dir =>
      refine .bind (ends_referenceSlacks fun fault' path fault h => ?_) fun reference _ => ?_
      · cases h
      refine .bind (.orFail (fun _ _ => trivial) fun cause _ path fault h => ?_) fun record _ => ?_
      · cases h
      · exact .pure ⟨predicted, hc⟩

/-- The calibrated slack in the directory for outputs. -/
def CalibrationPlaces.slackPath (places : CalibrationPlaces) (key : DesignKey) : Path :=
  places.output.below key.slackFile

/-- The spread in the directory for outputs. -/
def CalibrationPlaces.spreadPath (places : CalibrationPlaces) (key : DesignKey) : Path :=
  places.output.below key.slackSpreadFile

/-- What a calibration writes in the file of the slack. -/
def slackContent (c : Calibration Float) : Archive.Bytes :=
  Archive.utf8 (vectorText [c.calibratedWns])

/-- What a calibration writes in the file of the spread. -/
def spreadContent (c : Calibration Float) : Archive.Bytes :=
  Archive.utf8 (vectorText c.spread.toVector)

/-- The calibrated slack is in its file. -/
def HoldsSlack (files : FileTree) (places : CalibrationPlaces) (key : DesignKey)
    (c : Calibration Float) : Prop :=
  files.read (places.slackPath key) = .ok (slackContent c)

/-- The spread is in its file. -/
def HoldsSpread (files : FileTree) (places : CalibrationPlaces) (key : DesignKey)
    (c : Calibration Float) : Prop :=
  files.read (places.spreadPath key) = .ok (spreadContent c)

/-- What a calibration run that failed leaves of its outputs, by how far it came. What it had to
write is that of an analysis that did not fail. -/
inductive LeavesOutputs (files : FileTree) (places : CalibrationPlaces) (key : DesignKey)
    (policy : CalibrationPolicy Float) (after : FileTree) (e : RunFault) : Prop where
  /-- Nothing was written: the failure is not at the spread, and both files are as they were. -/
  | unwritten (not_spread : ∀ fault, e ≠ .file (places.spreadPath key) fault)
    (slack : files.SameFile after (places.slackPath key))
    (spread : files.SameFile after (places.spreadPath key))
  /-- There was no space for the slack, which is cut short. The spread is as it was. -/
  | slackCut (failed : e = .file (places.slackPath key) .storageFull)
    (slack : ∃ found, (calibratedDesign files places key policy).Finds found ∧
      after.HoldsCut (places.slackPath key) (slackContent found.calibration))
    (spread : files.SameFile after (places.spreadPath key))
  /-- The slack was written but not the spread, which is as it was or, if there was no space for it,
  cut short. -/
  | slackOnly (fault : Fault) (failed : e = .file (places.spreadPath key) fault)
    (found : ∃ found, (calibratedDesign files places key policy).Finds found ∧
      HoldsSlack after places key found.calibration ∧
      (files.SameFile after (places.spreadPath key) ∨
        fault = .storageFull ∧
          after.HoldsCut (places.spreadPath key) (spreadContent found.calibration)))

/-- Publishing stops at the first file that cannot be written, and leaves the other one alone. -/
theorem leavesOutputs_of_publish {found : CalibrationOutcome} {after : FileTree} {e : RunFault}
    (hfinds : (calibratedDesign files places key policy).Finds found)
    (h : Output.publish [.vector (places.slackPath key) [found.calibration.calibratedWns],
      .vector (places.spreadPath key) found.calibration.spread.toVector] files =
        (.error e, after)) :
    LeavesOutputs files places key policy after e := by
  have hapart : (places.slackPath key).Apart (places.spreadPath key) :=
    DesignKey.apart_below_slackFile
  rcases Output.publish_cons_eq_error_iff.mp h with hslack | ⟨between, hslack, hrest⟩
  · obtain ⟨fault, rfl, hwrite⟩ := Output.exists_of_write_eq_error hslack
    rcases FileTree.of_writeBelow_eq_error hwrite with hsame | ⟨rfl, cut, hreplaces, hcut⟩
    · refine .unwritten (fun fault' hfault => ?_) (fun here _ => hsame here) fun here _ =>
        hsame here
      exact DesignKey.below_slackFile_ne (RunFault.file.inj hfault).1
    · exact .slackCut rfl ⟨found, hfinds, cut, hreplaces.read, hcut⟩ (hreplaces.sameFile hapart)
  · obtain hspread | ⟨last, -, hnil⟩ := Output.publish_cons_eq_error_iff.mp hrest
    · obtain ⟨fault, rfl, hwrite⟩ := Output.exists_of_write_eq_error hspread
      have hwritten := FileTree.replaces_writeBelow (Output.write_eq_ok_iff.mp hslack)
      have hkeeps : ∀ here, between.kind? here = some .directory →
          after.kind? here = some .directory :=
        fun _ => FileTree.kind?_directory_of_writeBelow_eq_error hwrite
      refine .slackOnly fault rfl ⟨found, hfinds, ?_⟩
      rcases FileTree.of_writeBelow_eq_error hwrite with hsame | ⟨hfull, cut, hreplaces, hcut⟩
      · have hkept := hwritten.of_file?_eq hkeeps hsame
        exact ⟨hkept.read, .inl (hkept.sameFile hapart)⟩
      · -- the spread was opened, and the slack is in another file
        have hother := hreplaces.sameFile hapart.symm
        exact ⟨hother.read hkeeps hwritten.read, .inr ⟨hfull, cut, hreplaces.read, hcut⟩⟩
    · cases hnil

/-- What a calibration found is in its files. -/
theorem holds_of_result_eq_ok {found : CalibrationOutcome}
    (h : (calibration files places key policy).result = .ok found) :
    HoldsSlack (calibration files places key policy).files places key found.calibration ∧
      HoldsSpread (calibration files places key policy).files places key found.calibration := by
  obtain ⟨-, hpublish⟩ := Analysis.of_run_eq_ok h
  have hread := Output.read_of_publish (by simp [Output.isPlaced_vector])
    (List.pairwise_pair.mpr DesignKey.apart_below_slackFile) hpublish
  exact ⟨hread _ List.mem_cons_self, hread _ (List.mem_cons_of_mem _ List.mem_cons_self)⟩

/-- A calibration run that succeeds leaves its slack and its spread. One that fails leaves the
spread as it was unless it failed to write it, and then the slack of this run is already there. The
slack is as it was if neither of them failed to be written. A file that was opened and did not fit
holds a proper beginning of what this run had to write. -/
theorem calibration_publishes (files : FileTree) (places : CalibrationPlaces) (key : DesignKey)
    (policy : CalibrationPolicy Float) :
    (∀ found, (calibration files places key policy).result = .ok found →
        HoldsSlack (calibration files places key policy).files places key found.calibration ∧
          HoldsSpread (calibration files places key policy).files places key found.calibration) ∧
      ∀ e, (calibration files places key policy).result = .error e →
        LeavesOutputs files places key policy (calibration files places key policy).files
          e.fault := by
  refine ⟨fun found => holds_of_result_eq_ok, fun e he => ?_⟩
  rcases Analysis.of_run_eq_error he with ⟨hfails, hsame⟩ | ⟨found, hfinds, hpublish⟩
  · have hpath := ends_calibratedDesign.of_fails hfails
    rw [calibration, hsame]
    refine .unwritten (fun fault hfault => ?_) (fun _ _ => rfl) fun _ _ => rfl
    exact DesignKey.below_slackFile_ne (hpath _ _ hfault).symm
  · exact leavesOutputs_of_publish hfinds hpublish

/-- One predicted slack of a design without registers, and what stands where the outputs go. -/
def predictedBeside (outputs : List (String × Entry)) : FileTree where
  entries :=
    [("g", .directory [("uart_sog_node_dict.bin", .file (Archive.sealed .Registry
        (Archive.writeRegistry (.empty : NameMap (Node Float)))))]),
      ("o", .directory outputs),
      ("p", .directory [("uart_rf.json", .file (Archive.utf8 "[-1.0]"))])]

/-- A directory for each purpose, and no reference. -/
def uartPlaces : CalibrationPlaces := ⟨.ofText "g", .ofText "p", .ofText "o", none⟩

/-- The calibration of that design, where some files can take only so much. -/
def uartCalibration (outputs : List (String × Entry))
    (room : Location → Option Nat := fun _ => none) : RunOutcome CalibrationOutcome :=
  calibration { predictedBeside outputs with room } uartPlaces ⟨"uart", "sog"⟩ Builtin.calibration

/-- A directory has the name of the spread. -/
def spreadTaken : List (String × Entry) := [("uart_rf_mul.json", .directory [])]

/-- There is the spread of an earlier run. -/
def spreadThere : List (String × Entry) :=
  [("uart_rf_mul.json", .file (Archive.utf8 "[0.0,0.0,0.0]"))]

/-- Room for the first bytes of a spread. -/
def spreadRoom (here : Location) : Option Nat :=
  if here = ["o", "uart_rf_mul.json"] then some 3 else none

/-- All is written where there is space for it. A directory in the way of the spread leaves the new
slack without one, and a store with room for three bytes leaves these of the new spread, while the
old one is lost. -/
theorem calibration_publishes_uart :
    (∃ found, (uartCalibration []).result = .ok found ∧
      HoldsSlack (uartCalibration []).files uartPlaces ⟨"uart", "sog"⟩ found.calibration ∧
        HoldsSpread (uartCalibration []).files uartPlaces ⟨"uart", "sog"⟩ found.calibration) ∧
    (∃ e, (uartCalibration spreadTaken).result = .error e ∧
      e.fault = .file (uartPlaces.spreadPath ⟨"uart", "sog"⟩) .isDirectory ∧
      ∃ c, HoldsSlack (uartCalibration spreadTaken).files uartPlaces ⟨"uart", "sog"⟩ c) ∧
    ∃ e, (uartCalibration spreadThere spreadRoom).result = .error e ∧
      e.fault = .file (uartPlaces.spreadPath ⟨"uart", "sog"⟩) .storageFull ∧
      (uartCalibration spreadThere spreadRoom).files.read
        (uartPlaces.spreadPath ⟨"uart", "sog"⟩) = .ok (Archive.utf8 "[-1") ∧
      ∃ c, HoldsSlack (uartCalibration spreadThere spreadRoom).files uartPlaces
        ⟨"uart", "sog"⟩ c := by
  refine ⟨?_, ?_, ?_⟩
  · have hok : (uartCalibration []).fault? = none := by decide +kernel
    obtain ⟨found, huart⟩ := RunOutcome.fault?_eq_none_iff.mp hok
    exact ⟨found, huart, (calibration_publishes _ _ _ _).1 found huart⟩
  · have hfault : (uartCalibration spreadTaken).fault? =
        some (.file (uartPlaces.spreadPath ⟨"uart", "sog"⟩) .isDirectory) := by decide +kernel
    obtain ⟨e, huart, he⟩ := RunOutcome.fault?_eq_some_iff.mp hfault
    cases (calibration_publishes _ _ _ _).2 e huart with
    | unwritten hno => exact absurd he (hno _)
    | slackCut hslack => cases he.symm.trans hslack
    | slackOnly _ _ hfound =>
        obtain ⟨found, -, hslack, -⟩ := hfound
        exact ⟨e, huart, he, found.calibration, hslack⟩
  · have hfault : (uartCalibration spreadThere spreadRoom).fault? =
        some (.file (uartPlaces.spreadPath ⟨"uart", "sog"⟩) .storageFull) := by decide +kernel
    have hcut : (uartCalibration spreadThere spreadRoom).files.read
        (uartPlaces.spreadPath ⟨"uart", "sog"⟩) = .ok (Archive.utf8 "[-1") := by decide +kernel
    obtain ⟨e, huart, he⟩ := RunOutcome.fault?_eq_some_iff.mp hfault
    cases (calibration_publishes _ _ _ _).2 e huart with
    | unwritten hno => exact absurd he (hno _)
    | slackCut hslack =>
        rw [he, RunFault.file.injEq] at hslack
        exact absurd hslack.1.symm DesignKey.below_slackFile_ne
    | slackOnly _ _ hfound =>
        obtain ⟨found, -, hslack, -⟩ := hfound
        exact ⟨e, huart, he, hcut, found.calibration, hslack⟩

/-- The two outputs of a calibration are new together, or are both as before. -/
def IsPaired (before after : FileTree) (places : CalibrationPlaces) (key : DesignKey) : Prop :=
  (∃ c, HoldsSlack after places key c ∧ HoldsSpread after places key c) ∨
    before.SameFile after (places.slackPath key) ∧ before.SameFile after (places.spreadPath key)

/-- Where a directory has the name of the spread, the new slack has no spread beside it. -/
theorem calibration_unpaired :
    ¬ IsPaired (predictedBeside spreadTaken)
      (uartCalibration spreadTaken).files uartPlaces ⟨"uart", "sog"⟩ := by
  rintro (⟨c, -, hspread⟩ | ⟨hslack, -⟩)
  · have hno : (uartCalibration spreadTaken).files.read
        (uartPlaces.spreadPath ⟨"uart", "sog"⟩) = .error .isDirectory := by decide +kernel
    rw [HoldsSpread, hno] at hspread
    cases hspread
  · have hplace : ((uartCalibration spreadTaken).files.locate
        (uartPlaces.slackPath ⟨"uart", "sog"⟩)).map Cursor.location =
          .ok ["o", "uart_rf.json"] := by decide +kernel
    have hnew : (uartCalibration spreadTaken).files.file?
        ["o", "uart_rf.json"] = some (Archive.utf8 "[-1.0]") := by decide +kernel
    have hold : (predictedBeside spreadTaken).file?
        ["o", "uart_rf.json"] = none := by decide +kernel
    have hleads : (uartCalibration spreadTaken).files.LeadsTo
        (uartPlaces.slackPath ⟨"uart", "sog"⟩) ["o", "uart_rf.json"] := by
      cases hc : (uartCalibration spreadTaken).files.locate
          (uartPlaces.slackPath ⟨"uart", "sog"⟩) with
      | error fault =>
          rw [hc] at hplace
          cases hplace
      | ok c =>
          rw [hc] at hplace
          exact ⟨c, hc, Except.ok.inj hplace⟩
    have hsame := hslack _ hleads
    rw [hnew, hold] at hsame
    cases hsame

end Run

end Presynth
