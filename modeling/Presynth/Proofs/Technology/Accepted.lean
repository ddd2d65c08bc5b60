import Presynth.Proofs.Estimate.Node
import Presynth.Proofs.Estimate.Reference
import Presynth.Proofs.Numbers.Undefined
import Presynth.Proofs.Technology.Overlaid
import Presynth.Proofs.Timing.Annotation
/-!
# Accepted technologies

Estimates use the values of a technology as they are. An accepted technology allows that: every
operator has a cost, every cost and every delay is finite and not below zero, and a clock cycle
leaves time for paths. So no netlist has an operator without a cost or a gate with a malformed
delay, whatever a file gave.

The time that is left is looked at by a comparison which undefined numbers pass. It is defined all
the same, as the frequency is positive and what is taken away from the clock period is finite.

Main statements: `Technology.checkTiming_eq_ok_iff` (the check lets exactly the safe timing values
pass), `Technology.IsSafe.evaluate_error`, `Technology.IsSafe.annotateDelays_ne_malformed` and
`Technology.ofOverrides_safe`.
-/

namespace Presynth

/-! ### Safe values -/

/-- A number that can be a cost or a delay: finite, and not below zero. -/
def IsAmount (x : Float) : Prop := x.isFinite = true ∧ 0 ≤ x

/-- Costs that are amounts. -/
structure Coefficients.IsSafe (c : Coefficients Float) : Prop where
  area : IsAmount c.area
  staticPower : IsAmount c.staticPower
  dynamicPower : IsAmount c.dynamicPower

/-- A clock that runs and leaves time for paths, and delays that are amounts. -/
structure TimingRules.IsSafe (t : TimingRules Float) : Prop where
  frequency : t.frequency.hz.isFinite = true ∧ 0 < t.frequency.hz
  clockUncertainty : IsAmount t.clockUncertainty
  setup : IsAmount t.setup
  inputDelay : IsAmount t.inputDelay
  outputDelay : IsAmount t.outputDelay
  registerDelay : IsAmount t.registerDelay
  gateDelays : ∀ op d, t.gateDelays op = some d → IsAmount d
  requiredTime : 0 < t.requiredTime

/-- A technology that estimates can use for every netlist. -/
structure Technology.IsSafe (t : Technology Float) : Prop where
  sequential : t.sequential.IsSafe
  operators : ∀ op, ∃ c, t.operators op = some c ∧ c.IsSafe
  timing : t.timing.IsSafe

/-! ### Results in sequence -/

theorem seq_eq_ok_iff {ε β : Type} {x : Except ε Unit} {y : Except ε β} {b : β} :
    (x >>= fun _ => y) = .ok b ↔ x = .ok () ∧ y = .ok b := by
  cases x with
  | error e => exact ⟨nofun, nofun⟩
  | ok u => exact ⟨fun h => ⟨rfl, h⟩, fun h => h.2⟩

/-- A guarded sequence goes through if the guard does not fire. -/
theorem guard_eq_ok_iff {ε β : Type} {p : Prop} [Decidable p] {e : ε} {x : Except ε β} {b : β} :
    (if p then .error e else x) = .ok b ↔ ¬ p ∧ x = .ok b := by
  by_cases hp : p
  · simp [hp]
  · simp [hp]

theorem forM_eq_ok_iff {ε β : Type} {f : β → Except ε Unit} {l : List β} :
    l.forM f = .ok () ↔ ∀ b ∈ l, f b = .ok () := by
  induction l with
  | nil => exact ⟨fun _ => nofun, fun _ => rfl⟩
  | cons b l ih =>
      show (f b >>= fun _ => l.forM f) = .ok () ↔ _
      rw [seq_eq_ok_iff, ih, List.forall_mem_cons]

/-- What is done for all entries of a table goes through if it does for every value. -/
theorem OperatorTable.forM_entries_eq_ok_iff {ε β : Type} {table : OperatorTable β}
    {f : Operator × β → Except ε Unit} :
    table.entries.forM f = .ok () ↔ ∀ op value, table op = some value → f (op, value) = .ok () := by
  rw [forM_eq_ok_iff]
  simp only [Prod.forall, OperatorTable.mem_entries]

namespace Technology

/-! ### What the checks let pass -/

/-- The comparison with zero is made so that what is no number does not pass. -/
theorem checkNonNegative_eq_ok_iff {what : String} {x : Float} :
    checkNonNegative what x = .ok () ↔ IsAmount x := by
  unfold checkNonNegative IsAmount
  rw [← decide_eq_true_iff (p := 0 ≤ x), ← Bool.and_eq_true]
  split
  · rename_i h
    exact ⟨fun _ => h, fun _ => rfl⟩
  · rename_i h
    exact ⟨nofun, fun h' => absurd h' h⟩

theorem checkCost_eq_ok_iff {what : String} {c : Coefficients Float} :
    checkCost what c = .ok () ↔ c.IsSafe := by
  unfold checkCost
  rw [seq_eq_ok_iff, seq_eq_ok_iff]
  simp only [checkNonNegative_eq_ok_iff]
  exact ⟨fun ⟨area, static, dynamic⟩ => ⟨area, static, dynamic⟩,
    fun h => ⟨h.area, h.staticPower, h.dynamicPower⟩⟩

/-- The time left for paths is defined: the period may be too large for a finite double, but what is
taken away from it is finite. -/
theorem isNaN_requiredTime {t : TimingRules Float} (hz : 0 < t.frequency.hz)
    (uncertainty : t.clockUncertainty.isFinite = true) (setup : t.setup.isFinite = true) :
    t.requiredTime.isNaN = false := by
  have hgiga : ((Frequency.giga : Nat) : Float).isFinite = true := by rfl
  have hperiod : t.frequency.periodNs.isNaN = false := Double.isNaN_div_eq_false hgiga hz
  exact Double.isNaN_sub_eq_false (Double.isNaN_sub_eq_false hperiod uncertainty) setup

/-- The check of timing values lets exactly the safe ones pass. -/
theorem checkTiming_eq_ok_iff {t : TimingRules Float} : checkTiming t = .ok () ↔ t.IsSafe := by
  -- a clock that is no number is not at or below zero, but it is not finite either
  have hclock : ¬ (decide (t.frequency.hz ≤ 0) || !t.frequency.hz.isFinite) = true ↔
      t.frequency.hz.isFinite = true ∧ 0 < t.frequency.hz := by
    rw [Bool.or_eq_true, decide_eq_true_eq, Bool.not_eq_true', not_or, Bool.not_eq_false, and_comm]
    exact and_congr_right fun hfinite =>
      Double.not_le_zero_iff (Double.isNaN_eq_false_of_isFinite hfinite)
  refine guard_eq_ok_iff.trans ((and_congr_left' hclock).trans ?_)
  rw [seq_eq_ok_iff, seq_eq_ok_iff, seq_eq_ok_iff, seq_eq_ok_iff, seq_eq_ok_iff, seq_eq_ok_iff]
  simp only [checkNonNegative_eq_ok_iff, OperatorTable.forM_entries_eq_ok_iff]
  constructor
  · rintro ⟨frequency, uncertainty, setup, input, output, register, gates, required⟩
    have hdefined := isNaN_requiredTime frequency.2 uncertainty.1 setup.1
    have hpos := (Double.not_le_zero_iff hdefined).mp (guard_eq_ok_iff.mp required).1
    exact ⟨frequency, uncertainty, setup, input, output, register, gates, hpos⟩
  · intro safe
    have hdefined :=
      isNaN_requiredTime safe.frequency.2 safe.clockUncertainty.1 safe.setup.1
    have required := (Double.not_le_zero_iff hdefined).mpr safe.requiredTime
    exact ⟨safe.frequency, safe.clockUncertainty, safe.setup, safe.inputDelay, safe.outputDelay,
      safe.registerDelay, safe.gateDelays, guard_eq_ok_iff.mpr ⟨required, rfl⟩⟩

/-- An accepted technology has safe timing values, and the costs that it has are safe. -/
theorem isSafe_of_check {t : Technology Float} (ok : t.check = .ok ()) :
    t.sequential.IsSafe ∧ (∀ op c, t.operators op = some c → c.IsSafe) ∧ t.timing.IsSafe := by
  unfold check at ok
  rw [seq_eq_ok_iff, seq_eq_ok_iff, seq_eq_ok_iff] at ok
  simp only [checkCost_eq_ok_iff, OperatorTable.forM_entries_eq_ok_iff, checkTiming_eq_ok_iff] at ok
  obtain ⟨hsequential, hoperators, htiming, -⟩ := ok
  exact ⟨hsequential, hoperators, htiming⟩

/-! ### Costs and delays by a safe technology -/

/-- If every operator has a cost, then only nodes without a width and nodes with names of no
operator cannot be costed. -/
theorem IsSafe.evaluate_error {t : Technology Float} (h : t.IsSafe) {g : Netlist Float}
    {e : CostError} (failed : t.evaluate g = .error e) : ∃ node ∈ g.occurring,
      node.knownWidth? = none ∧ e = .missingWidth node.name ∨ Operator.NoInstance node.name e := by
  unfold evaluate at failed
  rw [Netlist.costedNodes_eq] at failed
  cases hrun : g.occurring.foldlM (t.addNode g) .zero with
  | ok tally =>
      rw [hrun] at failed
      cases failed
  | error e' =>
      rw [hrun] at failed
      obtain rfl : e' = e := Except.error.inj failed
      obtain ⟨before, node, after, hnodes, -, hnode⟩ :=
        exists_first_of_foldlM_error (fun _ _ _ => addNode_eq_error_iff) hrun
      refine ⟨node, hnodes ▸ by simp, ?_⟩
      cases hnode with
      | widthless kind width => exact .inl ⟨width, rfl⟩
      | unnamed kind width name => exact .inr name
      | absent kind width name table =>
          -- a safe technology has a cost for every operator
          obtain ⟨c, hc, -⟩ := h.operators _
          rw [table] at hc
          cases hc

/-- With a cost for every operator no node can ask for one that is missing. -/
theorem IsSafe.evaluate_ne_unknownOperator {t : Technology Float} (h : t.IsSafe)
    (g : Netlist Float) (name : String) (op : Operator) :
    t.evaluate g ≠ .error (.unknownOperator name op.mnemonic) := by
  intro failed
  obtain ⟨node, -, ⟨-, hwidth⟩ | hname⟩ := h.evaluate_error failed
  · cases hwidth
  · generalize hmnemonic : op.mnemonic = mnemonic at hname
    cases hname with
    | unsupported first none => exact none op hmnemonic

/-- All delays that a safe technology gives are amounts. -/
theorem IsSafe.isAmount_delaySource {t : Technology Float} (h : t.IsSafe) {node : Node Float}
    {d : Float} (hd : t.timing.delaySource node = some d) : IsAmount d := by
  unfold TimingRules.delaySource at hd
  split at hd
  · obtain rfl := Option.some.inj hd
    exact h.timing.registerDelay
  · split at hd
    · split at hd
      · exact h.timing.gateDelays _ d hd
      · cases hd
    · obtain rfl := Option.some.inj hd
      exact ⟨by rfl, Double.zero_le_iff.mpr trivial⟩

/-- And no gate delay of the technology is refused as an estimate. -/
theorem IsSafe.annotateDelays_ne_malformed {t : Technology Float} (h : t.IsSafe)
    (g : Netlist Float) (name : String) (d : Float) :
    (g.annotateDelays t.timing.delaySource).1 ≠ .error (.malformedDelay name d) := by
  intro failed
  rcases g.annotateDelays_cases t.timing.delaySource with ⟨hok, -⟩ | ⟨x, -, e, hx, herror, -⟩
  · cases failed.symm.trans hok
  · obtain rfl : e = _ := Except.error.inj (herror.symm.trans failed)
    cases hx with
    | unusable registered estimate hbad =>
        obtain ⟨hfinite, hnonneg⟩ := h.isAmount_delaySource estimate
        rcases hbad with hbad | hbad
        · exact absurd (hbad.symm.trans hfinite) (by decide)
        · exact Double.not_lt_zero_of_nonneg hnonneg hbad

/-! ### Accepted values -/

/-- What is laid over a technology that has a cost for every operator has one as well. -/
theorem IsOverlaid.exists_cost {t base : Technology Float} {given : TechnologyOverrides}
    (h : t.IsOverlaid given base) (hbase : ∀ op, ∃ c, base.operators op = some c) (op : Operator) :
    ∃ c, t.operators op = some c := by
  cases hgiven : given.operators.get? op.mnemonic with
  | none =>
      rw [h.otherOperators op hgiven]
      exact hbase op
  | some o =>
      obtain ⟨c, hc, -⟩ := h.operators op o hgiven
      exact ⟨c, hc⟩

/-- An accepted technology is safe and has the built-in values wherever nothing is given. By it no
netlist has an operator without a cost or a malformed delay. -/
theorem ofOverrides_safe {given : TechnologyOverrides} {t : Technology Float}
    (accepted : ofOverrides given = .ok t) :
    t.IsSafe ∧ t.IsOverlaid given builtin ∧
      (∀ (g : Netlist Float) e, t.evaluate g = .error e →
        (∃ node ∈ g.occurring, node.knownWidth? = none ∧ e = .missingWidth node.name ∨
          Operator.NoInstance node.name e) ∧
        ∀ name (op : Operator), e ≠ .unknownOperator name op.mnemonic) ∧
      ∀ (g : Netlist Float) name d,
        (g.annotateDelays t.timing.delaySource).1 ≠ .error (.malformedDelay name d) := by
  obtain ⟨t', hoverlay, accepted⟩ := exists_of_bind_eq_ok accepted
  obtain ⟨⟨⟩, hcheck, accepted⟩ := exists_of_bind_eq_ok accepted
  obtain rfl : t' = t := Except.ok.inj accepted
  have overlaid := isOverlaid_of_overlay hoverlay
  obtain ⟨hsequential, hoperators, htiming⟩ := isSafe_of_check hcheck
  have safe : t'.IsSafe := by
    refine ⟨hsequential, fun op => ?_, htiming⟩
    obtain ⟨c, hc⟩ := overlaid.exists_cost (fun op => ⟨_, rfl⟩) op
    exact ⟨c, hc, hoperators op c hc⟩
  refine ⟨safe, overlaid, fun g e failed => ⟨safe.evaluate_error failed, fun name op he => ?_⟩,
    safe.annotateDelays_ne_malformed⟩
  exact safe.evaluate_ne_unknownOperator g name op (he ▸ failed)

/-- One field of one operator, the delay of its gate and a slower clock. -/
def slowAdder : TechnologyOverrides where
  operators := .ofList [("Plus", { area := some 5.0 })]
  timing := { frequency := some (.ofGhz 1.0) }
  gateDelays := .ofList [("Plus", 0.21)]

/-- One operator is given another area and delay, and everything else is that of the builtin
technology. -/
theorem ofOverrides_safe_slowAdder :
    ∃ t, ofOverrides slowAdder = .ok t ∧ 0 < t.timing.requiredTime ∧
      (∃ c, t.operators .Plus = some c ∧ c.area = 5.0 ∧ c.staticPower = 0.07576 ∧ c.IsSafe) ∧
      t.timing.gateDelays .Plus = some 0.21 ∧ t.timing.gateDelays .And = some 0.0496 ∧
      ∀ (g : Netlist Float) name, t.evaluate g ≠ .error (.unknownOperator name "Plus") := by
  obtain ⟨t, accepted⟩ : ∃ t, ofOverrides slowAdder = .ok t := by
    cases h : ofOverrides slowAdder with
    | ok t => exact ⟨t, rfl⟩
    | error e =>
        have hok : (ofOverrides slowAdder).isOk = true := by decide +kernel
        rw [h] at hok
        cases hok
  obtain ⟨safe, overlaid, costed, -⟩ := ofOverrides_safe accepted
  obtain ⟨c, hc, hover⟩ := overlaid.operators .Plus { area := some 5.0 } rfl
  obtain ⟨c', hc', hsafe⟩ := safe.operators .Plus
  obtain rfl : c = c' := Option.some.inj (hc.symm.trans hc')
  refine ⟨t, accepted, safe.timing.requiredTime, ⟨c, hc, hover.area, hover.staticPower, hsafe⟩,
    overlaid.gateDelays .Plus, overlaid.gateDelays .And, fun g name failed => ?_⟩
  exact (costed g _ failed).2 name .Plus rfl

end Technology

end Presynth
