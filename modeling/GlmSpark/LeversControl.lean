import Mathlib.Data.List.Basic
import Mathlib.Data.Rat.Defs
import Mathlib.Algebra.Order.Ring.Unbundled.Rat
import Mathlib.Tactic.NormNum

/-!
# The control file of the levers scheduler

A control dictionary sets the scheduler's levers, the probe's default draft length and
the adaptive-k policy. `glm_levers_sched.py` writes some of them before it has checked
the rest, so a dictionary that is rejected may have been applied in part.
`spec_probe_scheduler.py` checks the whole dictionary first.

Strings are converted, and integers rounded to floats, by functions that are parameters;
a quotient of floats is not rounded.
-/

namespace GlmSpark.LeversControl

/-- A float of Python: a number, an infinity, or no number. Rounding is left to the conversions. -/
inductive PyFloat
  | nan
  | negInf
  | posInf
  | finite (value : ℚ)
  deriving DecidableEq

/-- `a < b`. -/
def PyFloat.lt : PyFloat → PyFloat → Bool
  | .finite a, .finite b => a < b
  | .negInf, .finite _ | .negInf, .posInf | .finite _, .posInf => true
  | _, _ => false

/-- `a <= b`. -/
def PyFloat.le : PyFloat → PyFloat → Bool
  | .finite a, .finite b => a ≤ b
  | .negInf, .negInf | .posInf, .posInf => true
  | a, b => a.lt b

/-- A value of a control file, as `json.load` gives it. -/
inductive Value
  | null
  | bool (value : Bool)
  | int (value : ℤ)
  | float (value : PyFloat)
  | str (value : String)
  | list (values : List Value)
  | dict (entries : List (String × Value))

/-- The conversions of strings and integers: `int(s)`, `float(s)`, `float(i)`. -/
structure Builtins where
  intOfStr : String → Option ℤ
  floatOfStr : String → Option PyFloat
  floatOfInt : ℤ → Option PyFloat

/-- `bool(value)`. -/
def Value.truth : Value → Bool
  | null => false
  | bool value => value
  | int value => value ≠ 0
  | float value => value ≠ .finite 0
  | str value => !value.isEmpty
  | list values => !values.isEmpty
  | dict entries => !entries.isEmpty

/-- `int(value)`: a float is truncated, a string parsed by Python; other values raise. -/
def Value.toInt (py : Builtins) : Value → Option ℤ
  | bool value => some (if value then 1 else 0)
  | int value => some value
  | float (.finite value) => some (value.num.tdiv value.den)
  | str value => py.intOfStr value
  | _ => none

/-- `float(value)`: strings and large integers are converted by Python; other values raise. -/
def Value.toFloat (py : Builtins) : Value → Option PyFloat
  | bool value => some (.finite (if value then 1 else 0))
  | int value => py.floatOfInt value
  | float value => some value
  | str value => py.floatOfStr value
  | _ => none

/-- The number a value is compared as; comparing another value to a float raises. -/
def Value.number : Value → Option PyFloat
  | bool value => some (.finite (if value then 1 else 0))
  | int value => some (.finite value)
  | float value => some value
  | _ => none

/-- `MODES` of the levers: how the lengths of a batch are decided. -/
inductive Mode
  | perRequest
  | batchUniform
  | batchMax
  deriving DecidableEq

/-- The name of a mode in the control file. -/
def Mode.name : Mode → String
  | perRequest => "per-request"
  | batchUniform => "batch-uniform"
  | batchMax => "batch-max"

/-- `MODES`, in order. -/
def modes : List Mode := [.perRequest, .batchUniform, .batchMax]

/-- `SIGNALS`. -/
def signals : List String := ["pos", "cond"]

/-- `LV`. The signal is a name because its start value from the environment is not checked. -/
structure Levers where
  mode : Mode
  signal : String
  endDrain : Bool
  coalesceMs : PyFloat
  deriving DecidableEq

/-- `adaptive_k_scheduler._MODES`. -/
inductive AkMode
  | perRequest
  | batchUniform
  deriving DecidableEq

/-- `adaptive_k_scheduler._SIGNALS`. -/
inductive AkSignal
  | pos
  | mean
  deriving DecidableEq

/-- The fields of `AdaptiveKConfig`, before `__post_init__` has looked at them. -/
structure Fields where
  enabled : Bool
  kLo : ℤ
  kHi : ℤ
  up : PyFloat
  down : PyFloat
  alpha : PyFloat
  seed : PyFloat
  mode : AkMode
  signal : AkSignal
  logEvery : ℤ
  deriving DecidableEq

/-- `AdaptiveKConfig.__post_init__` does not raise; modes and signals are checked by their
types. -/
def Fields.postInit (fields : Fields) : Bool :=
  ¬ (fields.kLo < 1 ∨ fields.kHi < fields.kLo) ∧
    (PyFloat.le (.finite 0) fields.down ∧ fields.down.le fields.up ∧
      fields.up.le (.finite 1)) ∧
    (PyFloat.lt (.finite 0) fields.alpha ∧ fields.alpha.le (.finite 1)) ∧
    (PyFloat.le (.finite 0) fields.seed ∧ fields.seed.le (.finite 1)) ∧
    ¬ fields.logEvery < 0

/-- Why a dictionary is rejected: a conversion raises, an unknown mode or signal, or a
configuration that fails its checks. -/
inductive Rejection
  | conversion (key : String)
  | mode
  | signal
  | config
  deriving DecidableEq

/-- `AdaptiveKConfig`: fields that passed the checks of `__post_init__`. -/
def AdaptiveKConfig : Type := { fields : Fields // fields.postInit = true }

/-- Configurations are compared by their fields, as dataclasses are. -/
instance : DecidableEq AdaptiveKConfig := inferInstanceAs (DecidableEq { _fields : Fields // _ })

/-- `_ReqState`. -/
structure ReqState where
  ema : PyFloat
  k : ℤ
  deriving DecidableEq

/-- `AdaptiveKPolicy`. -/
structure Policy where
  cfg : AdaptiveKConfig
  state : List (String × ReqState)
  counters : List (String × ℕ)
  deriving DecidableEq

/-- A new policy: no request, no count. -/
def Policy.fresh (cfg : AdaptiveKConfig) : Policy where
  cfg := cfg
  state := []
  counters := [("observations", 0), ("decisions_lo", 0), ("decisions_hi", 0), ("switches", 0),
    ("steps_uniform_lo", 0), ("steps_uniform_hi", 0)]

/-- The two variables of `glm_prefill_sched`. -/
structure PrefillSched where
  endDrain : Bool
  coalesceS : PyFloat
  deriving DecidableEq

/-- What a control dictionary can change, and the engine's draft length. -/
structure Scheduler where
  levers : Levers
  probeDefaultK : Option ℤ
  akCfg : AdaptiveKConfig
  ak : Policy
  prefillSched : Option PrefillSched
  akEngineK : ℤ
  deriving DecidableEq

/-- A control dictionary. -/
abbrev Control := List (String × Value)

/-- A step of the handler: what it wrote before it raised stays written. -/
abbrev Apply := ExceptT Rejection (StateM Scheduler)

/-- `max(0.0, min(float(ms), 5.0)) / 1000.0`. -/
def coalesceSeconds (ms : PyFloat) : PyFloat :=
  let capped := if PyFloat.lt (.finite 5) ms then .finite 5 else ms
  match if PyFloat.lt (.finite 0) capped then capped else .finite 0 with
  | .finite value => .finite (value / 1000)
  | other => other

/-- `_apply_prefill_sched`: the two levers go to the prefill scheduler, if it is loaded. -/
def applyPrefillSched (s : Scheduler) : Scheduler :=
  { s with prefillSched := s.prefillSched.map fun _ =>
      ⟨s.levers.endDrain, coalesceSeconds s.levers.coalesceMs⟩ }

/-- A conversion that raises for its key. -/
def converted {α : Type} (key : String) : Option α → Except Rejection α
  | some a => .ok a
  | none => .error (.conversion key)

/-- `min(int(upd[key]), self._ak_engine_k)`: a limit of the draft length, where the dictionary has
one. -/
def readLimit (py : Builtins) (engineK : ℤ) (key : String) (ctl : Control) :
    Except Rejection (Option ℤ) :=
  match ctl.lookup key with
  | none => .ok none
  | some value => (converted key (value.toInt py)).map fun k => some (min k engineK)

/-- The two draft lengths of a dictionary. -/
def readLimits (py : Builtins) (engineK : ℤ) (ctl : Control) :
    Except Rejection (Option ℤ × Option ℤ) := do
  let kLo ← readLimit py engineK "k_lo" ctl
  let kHi ← readLimit py engineK "k_hi" ctl
  return (kLo, kHi)

/-- `None if dk is None else max(0, min(int(dk), self._ak_engine_k))`. -/
def convertDefaultK (py : Builtins) (engineK : ℤ) : Value → Except Rejection (Option ℤ)
  | .null => .ok none
  | value => (converted "default_k" (value.toInt py)).map fun k => some (max 0 (min k engineK))

/-- A value that is one of `MODES`. -/
def convertMode : Value → Except Rejection Mode
  | .str name => match modes.find? fun mode => mode.name = name with
    | some mode => .ok mode
    | none => .error .mode
  | _ => .error .mode

/-- `bool(int(ctl["end_drain"]))`: the string `"0"` is false. -/
def convertEndDrain (py : Builtins) (value : Value) : Except Rejection Bool :=
  (converted "end_drain" (value.toInt py)).map (· ≠ 0)

/-- `float(ctl["coalesce_ms"])`. -/
def convertCoalesceMs (py : Builtins) (value : Value) : Except Rejection PyFloat :=
  converted "coalesce_ms" (value.toFloat py)

/-- A value that is one of `SIGNALS`. -/
def convertSignal : Value → Except Rejection String
  | .str name => if name ∈ signals then .ok name else .error .signal
  | _ => .error .signal

/-- A threshold of the new configuration: the given value, or the old one. -/
def readNumber (key : String) (ctl : Control) (old : PyFloat) : Except Rejection PyFloat :=
  match ctl.lookup key with
  | none => .ok old
  | some value => match value.number with
    | some number => .ok number
    | none => .error .config

/-- `replace(self._ak_cfg, **upd)`; `seed` is a key of the levers scheduler only. -/
def replaceCfg (cfg : AdaptiveKConfig) (limits : Option ℤ × Option ℤ) (withSeed : Bool)
    (ctl : Control) : Except Rejection AdaptiveKConfig := do
  let up ← readNumber "up" ctl cfg.1.up
  let down ← readNumber "down" ctl cfg.1.down
  let alpha ← readNumber "alpha" ctl cfg.1.alpha
  let seed ← readNumber "seed" (if withSeed then ctl else []) cfg.1.seed
  let fields : Fields := { cfg.1 with
    enabled := ((ctl.lookup "enabled").map Value.truth).getD cfg.1.enabled
    kLo := limits.1.getD cfg.1.kLo
    kHi := limits.2.getD cfg.1.kHi
    up := up
    down := down
    alpha := alpha
    seed := seed }
  if passed : fields.postInit = true then .ok ⟨fields, passed⟩ else .error .config

/-- `self._probe_default_k = …` -/
def writeDefaultK (k : Option ℤ) (s : Scheduler) : Scheduler := { s with probeDefaultK := k }

/-- `LV["mode"] = …` -/
def writeMode (mode : Mode) (s : Scheduler) : Scheduler :=
  { s with levers := { s.levers with mode := mode } }

/-- `LV["end_drain"] = …` -/
def writeEndDrain (endDrain : Bool) (s : Scheduler) : Scheduler :=
  { s with levers := { s.levers with endDrain := endDrain } }

/-- `LV["coalesce_ms"] = …` -/
def writeCoalesceMs (ms : PyFloat) (s : Scheduler) : Scheduler :=
  { s with levers := { s.levers with coalesceMs := ms } }

/-- `LV["signal"] = …` -/
def writeSignal (signal : String) (s : Scheduler) : Scheduler :=
  { s with levers := { s.levers with signal := signal } }

/-- `self._ak_cfg = cfg` with fresh averages: new policy, new state. -/
def writeCfg (cfg : AdaptiveKConfig) (s : Scheduler) : Scheduler :=
  { s with akCfg := cfg, ak := .fresh cfg }

/-- A step that may raise and writes nothing. -/
def raising {α : Type} (result : Except Rejection α) : Apply α := ExceptT.mk (pure result)

/-- `if key in ctl:` convert the value, which may raise, and write it. -/
def applyKey {α : Type} (reading : Option (Except Rejection α))
    (write : α → Scheduler → Scheduler) : Apply Unit :=
  match reading with
  | none => pure ()
  | some result => do modify (write (← raising result))

/-- `LeversScheduler._lv_apply`: keys are converted and written one after the other, and the
configuration is replaced last. -/
def lvApply (py : Builtins) (ctl : Control) : Apply Unit := do
  let limits ← raising (readLimits py (← get).akEngineK ctl)
  applyKey ((ctl.lookup "default_k").map (convertDefaultK py (← get).akEngineK)) writeDefaultK
  applyKey ((ctl.lookup "mode").map convertMode) writeMode
  applyKey ((ctl.lookup "end_drain").map (convertEndDrain py)) writeEndDrain
  applyKey ((ctl.lookup "coalesce_ms").map (convertCoalesceMs py)) writeCoalesceMs
  let old := (← get).levers.signal
  applyKey ((ctl.lookup "signal").map convertSignal) writeSignal
  let fresh := (← get).levers.signal ≠ old
  let cfg ← raising (replaceCfg (← get).akCfg limits true ctl)
  if cfg ≠ (← get).akCfg ∨ fresh then
    modify (writeCfg cfg)
  modify applyPrefillSched

/-- The body of `SpecProbeScheduler._probe_reload`, which checks the dictionary first. -/
def probeApply (py : Builtins) (ctl : Control) : Apply Unit := do
  let limits ← raising (readLimits py (← get).akEngineK ctl)
  let cfg ← raising (replaceCfg (← get).akCfg limits false ctl)
  let dk := (ctl.lookup "default_k").getD .null
  let defaultK ← raising (convertDefaultK py (← get).akEngineK dk)
  modify (writeDefaultK defaultK)
  if cfg ≠ (← get).akCfg then
    modify (writeCfg cfg)

/-- Run a step: its result and the state it leaves, which it keeps when it raised. -/
def Apply.exec {α : Type} (step : Apply α) (s : Scheduler) : Except Rejection α × Scheduler :=
  (ExceptT.run step).run s

/-- `LeversScheduler._probe_reload`: a file with a new time is applied, and ignored when that
raises. `contents` is nothing when the file cannot be read as a dictionary. -/
def probeReload (py : Builtins) (stat : Option ℕ) (contents : Option Control) (mtime : Option ℕ)
    (s : Scheduler) : Option ℕ × Scheduler :=
  match stat with
  | none => (mtime, s)
  | some time =>
    if mtime = some time then (mtime, s)
    else (some time, (contents.map fun ctl => ((lvApply py ctl).exec s).2).getD s)

section Exec

variable {α β : Type} (s : Scheduler)

/-- A step that only returns succeeds and leaves the scheduler alone. -/
@[simp] theorem exec_pure (a : α) : (pure a : Apply α).exec s = (.ok a, s) := rfl

/-- Reading the scheduler gives it as it is. -/
@[simp] theorem exec_get : (get : Apply Scheduler).exec s = (.ok s, s) := rfl

/-- A write always succeeds. -/
@[simp] theorem exec_modify (write : Scheduler → Scheduler) :
    (modify write : Apply Unit).exec s = (.ok (), write s) := rfl

/-- A check passes or raises, and writes nothing either way. -/
@[simp] theorem exec_raising (result : Except Rejection α) :
    (raising result).exec s = (result, s) := rfl

/-- A step is followed by the next one unless it raised. -/
theorem exec_bind (step : Apply α) (next : α → Apply β) :
    (step >>= next).exec s =
      match step.exec s with
      | (.ok a, after) => (next a).exec after
      | (.error rejection, after) => (.error rejection, after) := by
  simp only [Apply.exec, ExceptT.run_bind, StateT.run_bind]
  rcases (ExceptT.run step).run s with ⟨result, after⟩
  cases result <;> rfl

/-- A key that is given and cannot be used. -/
def rejected (reading : Option (Except Rejection α)) : Bool :=
  reading.any fun result => !result.isOk

/-- The value a key writes, or the old one. -/
def written (reading : Option (Except Rejection α)) (old : α) : α :=
  match reading with
  | some (.ok a) => a
  | _ => old

/-- Why a key cannot be used. -/
def reason (reading : Option (Except Rejection α)) : Rejection :=
  match reading with
  | some (.error rejection) => rejection
  | _ => .config

/-- A key raises, or writes its value and the rest follows. -/
theorem exec_applyKey_bind (reading : Option (Except Rejection α))
    (write : α → Scheduler → Scheduler) (old : α) (same : write old s = s)
    (rest : Unit → Apply β) :
    (applyKey reading write >>= rest).exec s =
      if rejected reading = true then (.error (reason reading), s)
      else (rest ()).exec (write (written reading old) s) := by
  cases reading with
  | none => simp [applyKey, rejected, written, same]
  | some result =>
    cases result with
    | error rejection =>
      simp [applyKey, exec_bind, rejected, Except.isOk, Except.toBool, reason]
    | ok a => simp [applyKey, exec_bind, rejected, Except.isOk, Except.toBool, written]

end Exec

/-- What the handler checks, in its order. -/
inductive Key
  | limits
  | defaultK
  | mode
  | endDrain
  | coalesceMs
  | signal
  | config
  deriving DecidableEq

/-- The order in which the handler checks the keys: everything written before a failing check stays
written. -/
def checkOrder : List Key :=
  [.limits, .defaultK, .mode, .endDrain, .coalesceMs, .signal, .config]

section Condition

variable (py : Builtins) (s : Scheduler) (ctl : Control)

/-- The dictionary fails a check. -/
def rejects : Key → Bool
  | .limits => !(readLimits py s.akEngineK ctl).isOk
  | .defaultK => rejected ((ctl.lookup "default_k").map (convertDefaultK py s.akEngineK))
  | .mode => rejected ((ctl.lookup "mode").map convertMode)
  | .endDrain => rejected ((ctl.lookup "end_drain").map (convertEndDrain py))
  | .coalesceMs => rejected ((ctl.lookup "coalesce_ms").map (convertCoalesceMs py))
  | .signal => rejected ((ctl.lookup "signal").map convertSignal)
  | .config => match readLimits py s.akEngineK ctl with
    | .ok limits => !(replaceCfg s.akCfg limits true ctl).isOk
    | .error _ => false

/-- What the handler writes when a check is passed, before the next one. -/
def writeKey (s : Scheduler) : Key → Scheduler
  | .limits | .config => s
  | .defaultK => writeDefaultK
      (written ((ctl.lookup "default_k").map (convertDefaultK py s.akEngineK)) s.probeDefaultK) s
  | .mode => writeMode (written ((ctl.lookup "mode").map convertMode) s.levers.mode) s
  | .endDrain => writeEndDrain
      (written ((ctl.lookup "end_drain").map (convertEndDrain py)) s.levers.endDrain) s
  | .coalesceMs => writeCoalesceMs
      (written ((ctl.lookup "coalesce_ms").map (convertCoalesceMs py)) s.levers.coalesceMs) s
  | .signal => writeSignal (written ((ctl.lookup "signal").map convertSignal) s.levers.signal) s

/-- The key is absent, or its value is the present one. -/
def restates : Key → Bool
  | .limits | .config => true
  | .defaultK => written ((ctl.lookup "default_k").map (convertDefaultK py s.akEngineK))
      s.probeDefaultK = s.probeDefaultK
  | .mode => written ((ctl.lookup "mode").map convertMode) s.levers.mode = s.levers.mode
  | .endDrain => written ((ctl.lookup "end_drain").map (convertEndDrain py)) s.levers.endDrain =
      s.levers.endDrain
  | .coalesceMs => written ((ctl.lookup "coalesce_ms").map (convertCoalesceMs py))
      s.levers.coalesceMs = s.levers.coalesceMs
  | .signal => written ((ctl.lookup "signal").map convertSignal) s.levers.signal = s.levers.signal

/-- The checks that are passed before the first one that fails. -/
def passed : List Key := checkOrder.takeWhile fun key => !rejects py s ctl key

/-- If the dictionary fails a check, every key passed before it restates the present value. -/
def Ignorable : Prop :=
  (checkOrder.any (rejects py s ctl)) = true → ∀ key ∈ passed py s ctl, restates py s ctl key = true

/-- Whether a dictionary may be ignored is decided by looking at its checks and keys. -/
instance : Decidable (Ignorable py s ctl) := by unfold Ignorable; infer_instance

/-- A dictionary that is rejected leaves everything as it was, also after an empty dictionary
is applied later. -/
def Ignored : Prop :=
  ∀ rejection after, (lvApply py ctl).exec s = (.error rejection, after) →
    after = s ∧ (lvApply py []).exec after = (lvApply py []).exec s

/-- The first check that fails, and the checks before it. -/
theorem first_failure (key : Key) (before after : List Key)
    (order : checkOrder = before ++ key :: after)
    (good : ∀ earlier ∈ before, rejects py s ctl earlier = false)
    (bad : rejects py s ctl key = true) :
    checkOrder.any (rejects py s ctl) = true ∧ passed py s ctl = before := by
  have keeps : ∀ earlier ∈ before, (!rejects py s ctl earlier) = true := by
    intro earlier listed
    rw [good earlier listed]
    rfl
  constructor
  · rw [order, List.any_append, List.any_cons, bad, Bool.true_or, Bool.or_true]
  · rw [passed, order, List.takeWhile_append_of_pos keeps, List.takeWhile_cons_of_neg (by simp [bad]),
      List.append_nil]

/-- What the handler did when it raised at a check. -/
theorem raised_at (key : Key) (before after : List Key)
    (order : checkOrder = before ++ key :: after)
    (good : ∀ earlier ∈ before, rejects py s ctl earlier = false)
    (bad : rejects py s ctl key = true) (rejection : Rejection)
    (run : (lvApply py ctl).exec s = (.error rejection, before.foldl (writeKey py ctl) s)) :
    if checkOrder.any (rejects py s ctl) = true then
      ∃ rejection, (lvApply py ctl).exec s =
        (.error rejection, (passed py s ctl).foldl (writeKey py ctl) s)
    else ((lvApply py ctl).exec s).1 = .ok () := by
  obtain ⟨any, before'⟩ := first_failure py s ctl key before after order good bad
  rw [if_pos any, before']
  exact ⟨rejection, run⟩

/-- A rejected dictionary leaves what was written before the check that failed. -/
theorem lvApply_rejected :
    if checkOrder.any (rejects py s ctl) = true then
      ∃ rejection, (lvApply py ctl).exec s =
        (.error rejection, (passed py s ctl).foldl (writeKey py ctl) s)
    else ((lvApply py ctl).exec s).1 = .ok () := by
  have start : (lvApply py ctl).exec s = _ := rfl
  conv at start => rhs; rw [lvApply, exec_bind, exec_get]; dsimp only; rw [exec_bind, exec_raising]
  cases limits : readLimits py s.akEngineK ctl with
  | error rejection =>
    have bad : rejects py s ctl .limits = true := by
      simp [rejects, limits, Except.isOk, Except.toBool]
    rw [limits] at start
    exact raised_at py s ctl .limits [] _ rfl (by simp) bad rejection start
  | ok pair =>
    have limitsOk : rejects py s ctl .limits = false := by
      simp [rejects, limits, Except.isOk, Except.toBool]
    rw [limits] at start
    dsimp only at start
    rw [exec_bind, exec_get] at start
    dsimp only at start
    rw [exec_applyKey_bind s _ writeDefaultK s.probeDefaultK rfl] at start
    cases defaultK : rejects py s ctl .defaultK with
    | true =>
      rw [if_pos (show rejected _ = true from defaultK)] at start
      exact raised_at py s ctl .defaultK [.limits] _ rfl (by simp [limitsOk]) defaultK _ start
    | false =>
    rw [if_neg (ne_true_of_eq_false (show rejected _ = false from defaultK)),
      exec_applyKey_bind _ _ writeMode _ rfl] at start
    cases mode : rejects py s ctl .mode with
    | true =>
      rw [if_pos (show rejected _ = true from mode)] at start
      exact raised_at py s ctl .mode [.limits, .defaultK] _ rfl (by simp [limitsOk, defaultK]) mode
        _ start
    | false =>
    rw [if_neg (ne_true_of_eq_false (show rejected _ = false from mode)),
      exec_applyKey_bind _ _ writeEndDrain _ rfl] at start
    cases endDrain : rejects py s ctl .endDrain with
    | true =>
      rw [if_pos (show rejected _ = true from endDrain)] at start
      exact raised_at py s ctl .endDrain [.limits, .defaultK, .mode] _ rfl
        (by simp [limitsOk, defaultK, mode]) endDrain _ start
    | false =>
    rw [if_neg (ne_true_of_eq_false (show rejected _ = false from endDrain)),
      exec_applyKey_bind _ _ writeCoalesceMs _ rfl] at start
    cases coalesceMs : rejects py s ctl .coalesceMs with
    | true =>
      rw [if_pos (show rejected _ = true from coalesceMs)] at start
      exact raised_at py s ctl .coalesceMs [.limits, .defaultK, .mode, .endDrain] _ rfl
        (by simp [limitsOk, defaultK, mode, endDrain]) coalesceMs _ start
    | false =>
    rw [if_neg (ne_true_of_eq_false (show rejected _ = false from coalesceMs)), exec_bind,
      exec_get] at start
    dsimp only at start
    rw [exec_applyKey_bind _ _ writeSignal _ rfl] at start
    cases signal : rejects py s ctl .signal with
    | true =>
      rw [if_pos (show rejected _ = true from signal)] at start
      exact raised_at py s ctl .signal [.limits, .defaultK, .mode, .endDrain, .coalesceMs] _ rfl
        (by simp [limitsOk, defaultK, mode, endDrain, coalesceMs]) signal _ start
    | false =>
    rw [if_neg (ne_true_of_eq_false (show rejected _ = false from signal)), exec_bind,
      exec_get] at start
    dsimp only at start
    rw [exec_bind, exec_get] at start
    dsimp only at start
    rw [exec_bind, exec_raising] at start
    have sameCfg (result : Except Rejection AdaptiveKConfig)
        (replaced : replaceCfg s.akCfg pair true ctl = result) (t : Scheduler)
        (kept : t.akCfg = s.akCfg) : replaceCfg t.akCfg pair true ctl = result := by
      rw [kept, replaced]
    cases replaced : replaceCfg s.akCfg pair true ctl with
    | error rejection =>
      have config : rejects py s ctl .config = true := by
        simp [rejects, limits, replaced, Except.isOk, Except.toBool]
      rw [sameCfg _ replaced] at start
      · exact raised_at py s ctl .config
          [.limits, .defaultK, .mode, .endDrain, .coalesceMs, .signal] [] rfl
          (by simp [limitsOk, defaultK, mode, endDrain, coalesceMs, signal]) config rejection start
      · rfl
    | ok cfg =>
      have config : rejects py s ctl .config = false := by
        simp [rejects, limits, replaced, Except.isOk, Except.toBool]
      have none : checkOrder.any (rejects py s ctl) = false := by
        simp [checkOrder, limitsOk, defaultK, mode, endDrain, coalesceMs, signal, config]
      rw [sameCfg _ replaced] at start
      · rw [if_neg (ne_true_of_eq_false none), start]
        dsimp only
        rw [exec_bind, exec_get]
        dsimp only
        split <;> simp [exec_bind]
      · rfl

/-- Two states agree on the part a key writes. -/
def Agree (t u : Scheduler) : Key → Prop
  | .limits | .config => True
  | .defaultK => t.probeDefaultK = u.probeDefaultK
  | .mode => t.levers.mode = u.levers.mode
  | .endDrain => t.levers.endDrain = u.levers.endDrain
  | .coalesceMs => t.levers.coalesceMs = u.levers.coalesceMs
  | .signal => t.levers.signal = u.levers.signal

/-- A key leaves the parts of the other keys alone. -/
theorem writeKey_other {key other : Key} (different : key ≠ other) :
    Agree (writeKey py ctl s other) s key := by
  cases key <;> cases other <;> first | exact absurd rfl different | trivial

/-- A key that leaves its own part alone leaves everything alone. -/
theorem writeKey_self (key : Key) (kept : Agree (writeKey py ctl s key) s key) :
    writeKey py ctl s key = s := by
  cases key with
  | limits => rfl
  | config => rfl
  | defaultK => exact congrArg (writeDefaultK · s) kept
  | mode => exact congrArg (writeMode · s) kept
  | endDrain => exact congrArg (writeEndDrain · s) kept
  | coalesceMs => exact congrArg (writeCoalesceMs · s) kept
  | signal => exact congrArg (writeSignal · s) kept

/-- A key restates its value exactly when writing it changes nothing. -/
theorem restates_iff (key : Key) :
    restates py s ctl key = true ↔ writeKey py ctl s key = s := by
  have own : restates py s ctl key = true ↔ Agree (writeKey py ctl s key) s key := by
    cases key with
    | limits => exact iff_of_true rfl trivial
    | config => exact iff_of_true rfl trivial
    | _ => exact decide_eq_true_iff
  rw [own]
  constructor
  · exact writeKey_self py s ctl key
  · intro same
    rw [same]
    cases key <;> trivial

/-- Agreement on a key is transitive, so the writes of several keys compose. -/
theorem Agree.trans {t u v : Scheduler} {key : Key} (first : Agree t u key)
    (second : Agree u v key) : Agree t v key := by
  cases key with
  | limits => trivial
  | config => trivial
  | defaultK => exact Eq.trans first second
  | mode => exact Eq.trans first second
  | endDrain => exact Eq.trans first second
  | coalesceMs => exact Eq.trans first second
  | signal => exact Eq.trans first second

/-- Keys that are not among the written ones keep their part. -/
theorem foldl_other {key : Key} (keys : List Key) (absent : key ∉ keys) :
    Agree (keys.foldl (writeKey py ctl) s) s key := by
  induction keys generalizing s with
  | nil => cases key <;> trivial
  | cons other keys ih =>
    obtain ⟨different, later⟩ := not_or.mp (mt List.mem_cons.mpr absent)
    exact (ih (writeKey py ctl s other) later).trans (writeKey_other py s ctl different)

/-- Writing distinct keys changes nothing exactly when each of them restates its value: no
key undoes what another one wrote. -/
theorem foldl_restates (keys : List Key) (distinct : keys.Nodup) :
    keys.foldl (writeKey py ctl) s = s ↔ ∀ key ∈ keys, writeKey py ctl s key = s := by
  induction keys with
  | nil => simp
  | cons key keys ih =>
    obtain ⟨absent, distinct⟩ := List.nodup_cons.mp distinct
    rw [List.foldl_cons, List.forall_mem_cons]
    constructor
    · intro same
      have kept := foldl_other py (writeKey py ctl s key) ctl keys absent
      rw [same] at kept
      have restated : writeKey py ctl s key = s := by
        apply writeKey_self
        cases key <;> first | trivial | exact Eq.symm kept
      rw [restated] at same
      exact ⟨restated, (ih distinct).mp same⟩
    · rintro ⟨restated, later⟩
      rw [restated]
      exact (ih distinct).mpr later

/-- The empty dictionary keeps the configuration: every field is replaced by itself, and a valid
configuration passes its own check. -/
theorem replaceCfg_nil (cfg : AdaptiveKConfig) :
    replaceCfg cfg (none, none) true [] = .ok cfg :=
  dif_pos cfg.2

/-- The empty dictionary is never rejected, in any state. -/
theorem lvApply_nil : ((lvApply py []).exec s).1 = .ok () := by
  have limits : readLimits py s.akEngineK [] = .ok (none, none) := rfl
  have none : checkOrder.any (rejects py s []) = false := by
    simp [checkOrder, rejects, limits, replaceCfg_nil, rejected, Except.isOk, Except.toBool]
  have run := lvApply_rejected py s []
  rwa [if_neg (ne_true_of_eq_false none)] at run

/-- A new file whose dictionary fails a check is applied up to that check. -/
theorem probeReload_rejected (fails : checkOrder.any (rejects py s ctl) = true) (time : ℕ)
    (mtime : Option ℕ) (new : mtime ≠ some time) :
    probeReload py (some time) (some ctl) mtime s =
      (some time, (passed py s ctl).foldl (writeKey py ctl) s) := by
  have run := lvApply_rejected py s ctl
  rw [if_pos fails] at run
  obtain ⟨rejection, run⟩ := run
  simp [probeReload, new, run]

/-- The probe scheduler's handler, which writes nothing before its last check, leaves
everything as it was when it raises. -/
theorem probeApply_rejected (rejection : Rejection) (after : Scheduler)
    (raised : (probeApply py ctl).exec s = (.error rejection, after)) : after = s := by
  simp only [probeApply, exec_bind, exec_get, exec_raising, exec_modify] at raised
  cases limits : readLimits py s.akEngineK ctl with
  | error _ =>
    rw [limits] at raised
    exact (Prod.mk.inj raised).2.symm
  | ok pair =>
    rw [limits] at raised
    dsimp only at raised
    cases replaced : replaceCfg s.akCfg pair false ctl with
    | error _ =>
      rw [replaced] at raised
      exact (Prod.mk.inj raised).2.symm
    | ok cfg =>
      rw [replaced] at raised
      dsimp only at raised
      cases default : convertDefaultK py s.akEngineK ((ctl.lookup "default_k").getD .null) with
      | error _ =>
        rw [default] at raised
        exact (Prod.mk.inj raised).2.symm
      | ok defaultK =>
        rw [default] at raised
        dsimp only at raised
        split at raised <;> exact nomatch (Prod.mk.inj raised).1

end Condition

/-- A rejected dictionary changes nothing, now and after an empty one, exactly when every key
that was passed before the failed check restates the present value. -/
theorem ignored_iff (py : Builtins) (s : Scheduler) (ctl : Control) :
    Ignored py s ctl ↔ Ignorable py s ctl := by
  have run := lvApply_rejected py s ctl
  have distinct : (passed py s ctl).Nodup :=
    List.Nodup.sublist (List.takeWhile_sublist _) (by decide : checkOrder.Nodup)
  have kept := foldl_restates py s ctl (passed py s ctl) distinct
  unfold Ignored Ignorable
  by_cases any : checkOrder.any (rejects py s ctl) = true
  · rw [if_pos any] at run
    obtain ⟨rejection, run⟩ := run
    constructor
    · intro ignored _ key listed
      obtain ⟨same, _⟩ := ignored rejection _ run
      exact (restates_iff py s ctl key).mpr (kept.mp same key listed)
    · intro restated rejection' after run'
      obtain rfl : after = s := by
        rw [run] at run'
        rw [← (Prod.mk.inj run').2]
        exact kept.mpr fun key listed => (restates_iff py s ctl key).mp (restated any key listed)
      exact ⟨rfl, rfl⟩
  · rw [if_neg any] at run
    constructor
    · exact fun _ fails => absurd fails any
    · intro _ rejection after run'
      rw [run'] at run
      exact nomatch run

/-- No conversion succeeds. -/
def noBuiltins : Builtins := ⟨fun _ => none, fun _ => none, fun _ => none⟩

/-- The launch configuration. -/
def launchCfg : AdaptiveKConfig :=
  ⟨⟨true, 3, 5, .finite (29 / 50), .finite (21 / 50), .finite (3 / 20), .finite 1, .perRequest, .pos,
    200⟩, by norm_num [Fields.postInit, PyFloat.le, PyFloat.lt]⟩

/-- A scheduler after start. -/
def launch : Scheduler where
  levers := ⟨.perRequest, "pos", false, .finite 0⟩
  probeDefaultK := none
  akCfg := launchCfg
  ak := .fresh launchCfg
  prefillSched := some ⟨false, .finite 0⟩
  akEngineK := 5

/-- A mode that is accepted, and a `k_lo` that is not. -/
def badLimit : Control := [("mode", .str "batch-max"), ("k_lo", .int 0)]

/-- The mode of `badLimit` is kept although its `k_lo` is rejected, also when the file is read, and the
empty dictionary that comes next is accepted on that state, so nothing takes the mode back. The probe
scheduler's handler leaves everything alone on the same dictionary. -/
theorem bad_limit_not_ignored :
    ¬ Ignored noBuiltins launch badLimit ∧
      (probeReload noBuiltins (some 1) (some badLimit) none launch).2.levers.mode = .batchMax ∧
      ((lvApply noBuiltins []).exec (writeMode .batchMax launch)).1 = .ok () ∧
      ∀ rejection after, (probeApply noBuiltins badLimit).exec launch = (.error rejection, after) →
        after = launch := by
  refine ⟨fun ignored => ?_, ?_, lvApply_nil noBuiltins _,
    probeApply_rejected noBuiltins launch badLimit⟩
  · have run : (lvApply noBuiltins badLimit).exec launch =
        (.error .config, writeMode .batchMax launch) := rfl
    obtain ⟨same, _⟩ := ignored _ _ run
    exact absurd (congrArg (fun s => s.levers.mode) same) (by decide)
  · rw [probeReload_rejected noBuiltins launch badLimit (by decide) 1 none nofun]
    decide

end GlmSpark.LeversControl
