import LinearAssignment.Proofs.History
import LinearAssignment.Proofs.Refusal

/-! # Options set by name

A text that is accepted for a parameter changes the option of that name and no other, and a limit is
accepted only if it is valid. So no sequence of requests leads from valid options to invalid ones,
and whatever is refused leaves the handle as it was.
-/

namespace LinearAssignment

/-! ## Names -/

namespace ParameterName

theorem ofText?_text (parameter : ParameterName) : ofText? parameter.text = some parameter := by
  cases parameter <;> rfl

theorem text_of_ofText? {name : String} {parameter : ParameterName}
    (known : ofText? name = some parameter) : parameter.text = name := by
  rw [ofText?] at known
  exact beq_iff_eq.mp (List.find?_some known :)

theorem mem_all (parameter : ParameterName) : parameter ∈ all := by
  cases parameter <;> decide

end ParameterName

/-! ## One option at a time -/

namespace Options

section

variable {κ : Type} [CostNumber κ] {options other : Options κ}

/-- The options with one parameter taken from others. -/
def adopt (options other : Options κ) : ParameterName → Options κ
  | .extendCost => { options with extendCost := other.extendCost }
  | .costLimit => { options with costLimit := other.costLimit }
  | .initialization => { options with initialization := other.initialization }
  | .limitStrategy => { options with limitStrategy := other.limitStrategy }
  | .verify => { options with verify := other.verify }

/-- The check looks at nothing but the limit. -/
theorem check_congr (same : options.costLimit = other.costLimit) : options.check = other.check := by
  rw [check, check, same]

end

variable {options changed : Options Float} {parameter : ParameterName} {value : String}

private theorem exists_of_bind_eq_ok {α β : Type} {first : Except (Refusal Float) α}
    {next : α → Except (Refusal Float) β} {result : β} (success : first >>= next = .ok result) :
    ∃ value, first = .ok value ∧ next value = .ok result := by
  cases first with
  | error refusal => contradiction
  | ok value => exact ⟨value, rfl, success⟩

/-- An accepted text changes the option it is for, to a value that is valid if it is a limit. -/
theorem adopt_of_withParameter (accepted : options.withParameter parameter value = .ok changed) :
    changed = options.adopt changed parameter ∧
      (parameter = .costLimit ∨ options.check = .ok () → changed.check = .ok ()) := by
  cases parameter with
  | costLimit =>
    obtain ⟨limit, _, accepted⟩ := exists_of_bind_eq_ok accepted
    obtain ⟨_, checked, accepted⟩ := exists_of_bind_eq_ok accepted
    cases accepted
    exact ⟨rfl, fun _ => checked⟩
  | extendCost =>
    obtain ⟨_, _, accepted⟩ := exists_of_bind_eq_ok accepted
    cases accepted
    exact ⟨rfl, fun valid => (check_congr rfl).trans (valid.resolve_left nofun)⟩
  | initialization =>
    obtain ⟨_, _, accepted⟩ := exists_of_bind_eq_ok accepted
    cases accepted
    exact ⟨rfl, fun valid => (check_congr rfl).trans (valid.resolve_left nofun)⟩
  | limitStrategy =>
    obtain ⟨_, _, accepted⟩ := exists_of_bind_eq_ok accepted
    cases accepted
    exact ⟨rfl, fun valid => (check_congr rfl).trans (valid.resolve_left nofun)⟩
  | verify =>
    obtain ⟨_, _, accepted⟩ := exists_of_bind_eq_ok accepted
    cases accepted
    exact ⟨rfl, fun valid => (check_congr rfl).trans (valid.resolve_left nofun)⟩

end Options

/-! ## Requests -/

/-- A solve under valid options is refused for none of them, whatever memory it works in. -/
theorem solveIn_ne_parameter {κ : Type} [CostNumber κ] (workspace : Workspace κ)
    (cost : CostMatrix κ) {options : Options κ} (checked : options.check = .ok ())
    (name reason : String) :
    (solveIn workspace cost options).result ≠ .error (.parameter name reason) := by
  intro refused
  rw [solveIn, checked] at refused
  cases made : SquareProblem.ofCost cost options with
  | error refusal =>
    rw [made] at refused
    cases refused
    rcases SquareProblem.refusal_of_ofCost made with ⟨impossible, _⟩ |
      ⟨side, ⟨impossible, _⟩ | ⟨cause, impossible, _⟩⟩ <;>
      contradiction
  | ok problem =>
    rw [made] at refused
    cases granted : workspace.prepare problem.dimension with
    | error cause =>
      simp only [granted] at refused
      cases refused
    | ok prepared =>
      simp only [granted, SquareProblem.run] at refused
      split at refused
      · cases refused
      · cases refused

namespace Solver

variable {solver : Solver Float} {name value : String}

@[simp]
theorem listed_name (solver : Solver Float) (parameter : ParameterName) :
    (solver.listed parameter).name = parameter.text := by
  cases parameter <;> rfl

@[simp]
theorem listed_value (solver : Solver Float) (parameter : ParameterName) :
    (solver.listed parameter).value = solver.options.parameterText parameter := by
  cases parameter <;> rfl

/-- A request is refused and changes nothing, or one option of the handle is set. -/
theorem set_cases (solver : Solver Float) (name value : String) :
    (∃ refusal, solver.set name value = (.error refusal, solver)) ∨
    ∃ parameter changed, ParameterName.ofText? name = some parameter ∧
      solver.options.withParameter parameter value = .ok changed ∧
      solver.set name value = (.ok (), { solver with options := changed }) := by
  rw [set]
  cases known : ParameterName.ofText? name with
  | none => exact .inl ⟨_, rfl⟩
  | some parameter =>
    dsimp only
    cases accepted : solver.options.withParameter parameter value with
    | error refusal => exact .inl ⟨refusal, rfl⟩
    | ok changed => exact .inr ⟨parameter, changed, rfl, accepted, rfl⟩

theorem check_set (checked : solver.options.check = .ok ()) (name value : String) :
    (solver.set name value).2.options.check = .ok () := by
  rcases solver.set_cases name value with
    ⟨refusal, refused⟩ | ⟨parameter, changed, _, accepted, performed⟩
  · rw [refused]
    exact checked
  · rw [performed]
    exact (Options.adopt_of_withParameter accepted).2 (.inr checked)

/-- Requests lead from valid options to valid options. -/
theorem check_after_set (checked : solver.options.check = .ok ())
    (requests : List (String × String)) :
    (solver.after (requests.map fun (name, value) => .set name value)).options.check = .ok () := by
  induction requests generalizing solver with
  | nil => exact checked
  | cons request rest ih => exact ih (check_set checked request.1 request.2)

/-- A request that is refused leaves the whole handle as it was. One that is accepted is for a
parameter that is listed and sets that option only, and options that were valid before go on to be
valid. So after any sequence of requests no solve is refused for an option if none was before. -/
theorem set_safe (solver : Solver Float) (name value : String)
    (requests : List (String × String)) :
    let call := solver.set name value
    let later := solver.after (requests.map fun (name, value) => .set name value)
    (∀ refusal, call.1 = .error refusal → call.2 = solver) ∧
    (call.1 = .ok () →
      name ∈ solver.parameters.map (·.name) ∧
      (∃ parameter, parameter.text = name ∧
        call.2 = { solver with options := solver.options.adopt call.2.options parameter }) ∧
      (solver.options.check = .ok () → call.2.options.check = .ok ())) ∧
    (solver.options.check = .ok () →
      later.options.check = .ok () ∧
      ∀ cost parameter reason,
        (later.solve cost).result ≠ .error (.parameter parameter reason) ∧
        LinearAssignment.solve cost later.options ≠ .error (.parameter parameter reason)) := by
  intro call later
  refine ⟨fun refusal failed => ?_, fun success => ?_, fun checked => ?_⟩
  · rcases solver.set_cases name value with ⟨_, refused⟩ | ⟨_, _, _, _, performed⟩
    · simp only [call, refused]
    · simp only [call, performed] at failed
      contradiction
  · rcases solver.set_cases name value with
      ⟨_, refused⟩ | ⟨parameter, changed, known, accepted, performed⟩
    · simp only [call, refused] at success
      contradiction
    · obtain ⟨only, valid⟩ := Options.adopt_of_withParameter accepted
      have named := ParameterName.text_of_ofText? known
      simp only [call, performed]
      refine ⟨?_, ⟨parameter, named, ?_⟩, fun checked => valid (.inr checked)⟩
      · rw [← named, ← listed_name]
        exact List.mem_map_of_mem (List.mem_map_of_mem parameter.mem_all)
      · rw [← only]
  · have valid := check_after_set checked requests
    exact ⟨valid, fun cost parameter reason =>
      ⟨solveIn_ne_parameter _ cost valid parameter reason,
        solveIn_ne_parameter .empty cost valid parameter reason⟩⟩

/-- A limit whose number is too large is no limit, and one whose number is too small or that is no
number at all is refused, as is a strategy of another name. -/
theorem set_safe_beyond_range :
    let solver := ofOptions ({ costLimit := 0.5 } : Options Float)
    let requests :=
      [("cost_limit", "nan"), ("cost_limit", "1e999"), ("limit_strategy", "none"),
        ("verify", "true")]
    let later := solver.after (requests.map fun (name, value) => .set name value)
    (solver.set "cost_limit" "-1e999").2 = solver ∧
      (solver.set "cost_limit" "1e999").2.options.check = .ok () ∧
      later.options.check = .ok () ∧ later.options.isLimited = false ∧
      later.options.limitStrategy = .postFilter ∧ later.options.verify = true := by
  intro solver requests later
  have valid : solver.options.check = .ok () := by
    rw [Options.check, if_neg (by decide +kernel), if_neg (by decide +kernel)]
  have tooSmall : (solver.set "cost_limit" "-1e999").1.toOption = none := by decide +kernel
  have tooLarge : (solver.set "cost_limit" "1e999").1.toOption = some () := by decide +kernel
  have ended : later.options.isLimited = false ∧ later.options.limitStrategy = .postFilter ∧
      later.options.verify = true := by decide +kernel
  obtain ⟨unchanged, _, run⟩ := set_safe solver "cost_limit" "-1e999" requests
  obtain ⟨_, accepted, _⟩ := set_safe solver "cost_limit" "1e999" requests
  refine ⟨?_, ?_, (run valid).1, ended⟩
  · cases failed : (solver.set "cost_limit" "-1e999").1 with
    | error refusal => exact unchanged refusal failed
    | ok _ =>
      rw [failed] at tooSmall
      contradiction
  · cases success : (solver.set "cost_limit" "1e999").1 with
    | error refusal =>
      rw [success] at tooLarge
      contradiction
    | ok _ => exact (accepted success).2.2 valid

end Solver

end LinearAssignment
