import Presynth.Technology.Overlay
/-!
# What an overlay changes

A technology with given values laid over it has the given values and, down to the single fields of
one operator, its own values everywhere else. The tables are laid over entry by entry; as the names
of the entries differ, no entry is laid over another one.

Main statements: `Technology.overlayWith_eq_ok` (every operator has what its own entry makes of it)
and `Technology.isOverlaid_of_overlay` (the whole technology is the given one over the base).
-/

namespace Presynth

/-! ### Given over base, field by field -/

/-- Costs that are the given ones, and those of a base where nothing is given. -/
structure Coefficients.IsOverlaid (c : Coefficients Float) (given : CoefficientOverrides)
    (base : Coefficients Float) : Prop where
  area : c.area = given.area.getD base.area
  staticPower : c.staticPower = given.staticPower.getD base.staticPower
  dynamicPower : c.dynamicPower = given.dynamicPower.getD base.dynamicPower

/-- The technology has the given values, and those of the base where nothing is given. An operator
that the base has no cost for starts from zero. -/
structure Technology.IsOverlaid (t : Technology Float) (given : TechnologyOverrides)
    (base : Technology Float) : Prop where
  sequential : t.sequential.IsOverlaid given.sequential base.sequential
  /-- Nothing is given for what is no operator. -/
  named : ∀ name, (given.operators.get? name).isSome ∨ (given.gateDelays.get? name).isSome →
    ∃ op : Operator, name = op.mnemonic
  operators : ∀ op o, given.operators.get? op.mnemonic = some o →
    ∃ c, t.operators op = some c ∧ c.IsOverlaid o ((base.operators op).getD ⟨0, 0, 0⟩)
  otherOperators : ∀ op, given.operators.get? op.mnemonic = none →
    t.operators op = base.operators op
  gateDelays : ∀ op, t.timing.gateDelays op =
    (given.gateDelays.get? op.mnemonic).or (base.timing.gateDelays op)
  frequency : t.timing.frequency = given.timing.frequency.getD base.timing.frequency
  clockUncertainty :
    t.timing.clockUncertainty = given.timing.clockUncertainty.getD base.timing.clockUncertainty
  setup : t.timing.setup = given.timing.setup.getD base.timing.setup
  inputDelay : t.timing.inputDelay = given.timing.inputDelay.getD base.timing.inputDelay
  outputDelay : t.timing.outputDelay = given.timing.outputDelay.getD base.timing.outputDelay
  registerDelay :
    t.timing.registerDelay = given.timing.registerDelay.getD base.timing.registerDelay
  sampleRatio :
    t.calibration.sampleRatio = given.calibration.sampleRatio.getD base.calibration.sampleRatio
  sparseFloor :
    t.calibration.sparseFloor = given.calibration.sparseFloor.getD base.calibration.sparseFloor
  minSamples :
    t.calibration.minSamples = given.calibration.minSamples.getD base.calibration.minSamples
  maxSamples :
    t.calibration.maxSamples = given.calibration.maxSamples.getD base.calibration.maxSamples
  smallScale :
    t.calibration.smallScale = given.calibration.smallScale.getD base.calibration.smallScale
  mediumScale :
    t.calibration.mediumScale = given.calibration.mediumScale.getD base.calibration.mediumScale

theorem CoefficientOverrides.isOverlaid_over (given : CoefficientOverrides)
    (base : Coefficients Float) : (given.over base).IsOverlaid given base := ⟨rfl, rfl, rfl⟩

/-! ### Results in sequence -/

/-- A sequence that went through went through its first part. -/
theorem exists_of_bind_eq_ok {ε β γ : Type} {x : Except ε β} {f : β → Except ε γ} {c : γ}
    (h : (x >>= f) = .ok c) : ∃ b, x = .ok b ∧ f b = .ok c := by
  cases x with
  | error e => cases h
  | ok b => exact ⟨b, rfl, h⟩

theorem exists_of_toOption_map {ε β γ : Type} {x : Except ε β} {f : β → γ} {c : γ}
    (h : x.toOption.map f = some c) : ∃ b, x = .ok b ∧ f b = c := by
  cases x with
  | error e => cases h
  | ok b => exact ⟨b, rfl, Option.some.inj h⟩

namespace Technology

/-! ### Tables -/

/-- Mnemonics are told apart, so a mnemonic names one operator at most. -/
theorem operatorNamed_eq_ok_iff {mnemonic : String} {op : Operator} :
    operatorNamed mnemonic = .ok op ↔ mnemonic = op.mnemonic := by
  rw [← Operator.ofMnemonic?_eq_some_iff]
  unfold operatorNamed
  cases Operator.ofMnemonic? mnemonic with
  | none => simp
  | some other => simp

section Tables

variable {β γ : Type} {merge : γ → Option β → β}

/-- Lays entries over a table; each is merged into what its operator has. -/
def overlayWith (merge : γ → Option β → β) (base : OperatorTable β) :
    List (String × γ) → Except TechnologyError (OperatorTable β)
  | [] => .ok base
  | (mnemonic, given) :: rest => do
    let op ← operatorNamed mnemonic
    overlayWith merge (base.insert op (merge given (base op))) rest

/-- Costs are overlaid field by field, onto zero where there was no cost. -/
theorem overlayCosts_eq (base : OperatorTable (Coefficients Float))
    (l : List (String × CoefficientOverrides)) :
    overlayCosts base l = overlayWith (fun given c => given.over (c.getD ⟨0, 0, 0⟩)) base l := by
  induction l generalizing base with
  | nil => rfl
  | cons e l ih =>
      rw [overlayCosts, overlayWith]
      cases operatorNamed e.1 with
      | error e => rfl
      | ok op => exact ih _

/-- A delay that is given replaces the one that was there. -/
theorem overlayDelays_eq (base : OperatorTable Float) (l : List (String × Float)) :
    overlayDelays base l = overlayWith (fun given _ => given) base l := by
  induction l generalizing base with
  | nil => rfl
  | cons e l ih =>
      rw [overlayDelays, overlayWith]
      cases operatorNamed e.1 with
      | error e => rfl
      | ok op => exact ih _

/-- An operator without an entry keeps what it has, another one has what its entry makes of it. -/
theorem overlayWith_eq_ok {base t : OperatorTable β} {l : List (String × γ)}
    (sorted : NameMap.Sorted l) (ok : overlayWith merge base l = .ok t) (op : Operator) :
    t op =
      ((NameMap.lookup op.mnemonic l).map fun given => merge given (base op)).or (base op) := by
  induction l generalizing base with
  | nil =>
      obtain rfl : base = t := Except.ok.inj ok
      rfl
  | cons e l ih =>
      obtain ⟨mnemonic, given⟩ := e
      obtain ⟨hfirst, hrest⟩ := List.pairwise_cons.mp sorted
      obtain ⟨first, hnamed, hok⟩ := exists_of_bind_eq_ok ok
      obtain rfl : mnemonic = first.mnemonic := operatorNamed_eq_ok_iff.mp hnamed
      rw [ih hrest hok, NameMap.lookup]
      by_cases hop : op = first
      · subst hop
        -- the later entries have greater names
        have hlookup : NameMap.lookup op.mnemonic l = none :=
          NameMap.lookup_eq_none_iff.mpr fun e he heq =>
            String.lt_irrefl _ (heq ▸ hfirst e he)
        simp [hlookup, OperatorTable.insert]
      · have hname : first.mnemonic ≠ op.mnemonic := fun h => hop <| by
          have hsome := Operator.ofMnemonic?_mnemonic op
          rw [← h, Operator.ofMnemonic?_mnemonic] at hsome
          exact (Option.some.inj hsome).symm
        simp [hname, OperatorTable.insert, hop]

/-- Only operators have entries. -/
theorem exists_operator_of_overlayWith {base t : OperatorTable β} {l : List (String × γ)}
    (ok : overlayWith merge base l = .ok t) {name : String} {given : γ} (h : (name, given) ∈ l) :
    ∃ op : Operator, name = op.mnemonic := by
  induction l generalizing base with
  | nil => cases h
  | cons e l ih =>
      obtain ⟨mnemonic, first⟩ := e
      obtain ⟨op, hnamed, hok⟩ := exists_of_bind_eq_ok ok
      rcases List.mem_cons.mp h with heq | h
      · obtain ⟨rfl, rfl⟩ := Prod.mk.inj heq
        exact ⟨op, operatorNamed_eq_ok_iff.mp hnamed⟩
      · exact ih hok h

end Tables

/-! ### The whole technology -/

/-- Each field of the technology is the given one, or the one of the base where none is given. -/
theorem isOverlaid_of_overlay {base t : Technology Float} {given : TechnologyOverrides}
    (ok : base.overlay given = .ok t) : t.IsOverlaid given base := by
  obtain ⟨operators, hoperators, ok⟩ := exists_of_bind_eq_ok ok
  obtain ⟨gateDelays, hgates, ok⟩ := exists_of_bind_eq_ok ok
  obtain rfl := Except.ok.inj ok
  rw [overlayCosts_eq] at hoperators
  rw [overlayDelays_eq] at hgates
  -- both tables are overlaid entry by entry, and an unknown name would have failed
  have hcost := overlayWith_eq_ok given.operators.sorted hoperators
  have hdelay := overlayWith_eq_ok given.gateDelays.sorted hgates
  constructor
  case sequential => exact given.sequential.isOverlaid_over base.sequential
  case named =>
    intro name hgiven
    rcases hgiven with h | h
    · obtain ⟨o, ho⟩ := Option.isSome_iff_exists.mp h
      exact exists_operator_of_overlayWith hoperators (NameMap.mem_toList_iff.mpr ho)
    · obtain ⟨d, hd⟩ := Option.isSome_iff_exists.mp h
      exact exists_operator_of_overlayWith hgates (NameMap.mem_toList_iff.mpr hd)
  case operators =>
    intro op o ho
    refine ⟨_, ?_, o.isOverlaid_over _⟩
    show operators op = _
    rw [hcost op, show NameMap.lookup op.mnemonic given.operators.toList = some o from ho]
    rfl
  case otherOperators =>
    intro op ho
    show operators op = _
    rw [hcost op, show NameMap.lookup op.mnemonic given.operators.toList = none from ho]
    rfl
  case gateDelays =>
    intro op
    show gateDelays op = _
    rw [hdelay op, Option.map_id']
    rfl
  all_goals rfl

end Technology

end Presynth
