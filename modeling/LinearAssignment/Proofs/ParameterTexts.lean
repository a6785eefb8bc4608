import LinearAssignment.Proofs.Decimal.Text
import LinearAssignment.Proofs.Parameters

/-! # Options carried over as texts

What a parameter is listed as is read back as its value, so that all that one handle lists, set on
another in whatever order, gives the other handle the same options. The texts are canonical: what is
read after a request, requested again, changes nothing.
-/

namespace LinearAssignment

/-! ## Values -/

theorem booleanOfText_booleanText (parameter : ParameterName) (value : Bool) :
    booleanOfText parameter (booleanText value) = .ok value := by
  cases value <;> rfl

theorem DualStart.ofName_name {κ : Type} (choice : DualStart) :
    (ofName choice.name : Except (Refusal κ) DualStart) = .ok choice := by
  cases choice <;> rfl

theorem LimitStrategy.ofName_name {κ : Type} (choice : LimitStrategy) :
    (ofName choice.name : Except (Refusal κ) LimitStrategy) = .ok choice := by
  cases choice <;> rfl

/-- The words for no limit are not the text of any other number. -/
theorem limitOfText_costText {limit : Float} (number : limit.isNaN = false) :
    limitOfText (costText limit) = .ok limit := by
  have read := Decimal.messageFormat.parse?_text number
  rw [limitOfText, costText]
  generalize Decimal.messageFormat.text limit = text at read
  split_ifs with word
  · simp only [List.mem_cons, List.not_mem_nil, or_false] at word
    rcases word with rfl | rfl | rfl
    · have infinite : Decimal.parse? "inf" = some Binary64.infinity := by decide +kernel
      exact congrArg Except.ok (Option.some.inj (infinite.symm.trans read))
    · have infinite : Decimal.parse? "+inf" = some Binary64.infinity := by decide +kernel
      exact congrArg Except.ok (Option.some.inj (infinite.symm.trans read))
    · have nothing : Decimal.parse? "none" = none := by decide +kernel
      rw [nothing] at read
      contradiction
  · rw [read]

namespace Options

variable {source : Options Float}

/-- An option is adopted from its text. -/
theorem withParameter_parameterText {parameter : ParameterName}
    (checked : parameter = .costLimit → source.check = .ok ()) (options : Options Float) :
    options.withParameter parameter (source.parameterText parameter) =
      .ok (options.adopt source parameter) := by
  cases parameter with
  | extendCost =>
    simp only [withParameter, parameterText, booleanOfText_booleanText]
    rfl
  | costLimit =>
    have read := limitOfText_costText (isNaN_of_check (checked rfl))
    have valid : ({ options with costLimit := source.costLimit } : Options Float).check = .ok () :=
      (check_congr rfl).trans (checked rfl)
    simp only [withParameter, parameterText, read]
    change ({ options with costLimit := source.costLimit } : Options Float).check >>= _ = _
    rw [valid]
    rfl
  | initialization =>
    simp only [withParameter, parameterText, DualStart.ofName_name]
    rfl
  | limitStrategy =>
    simp only [withParameter, parameterText, LimitStrategy.ofName_name]
    rfl
  | verify =>
    simp only [withParameter, parameterText, booleanOfText_booleanText]
    rfl

theorem adopt_self (options : Options Float) (parameter : ParameterName) :
    options.adopt options parameter = options := by
  cases parameter <;> rfl

/-- The order in which options are adopted is of no account. -/
instance adopt_comm (source : Options Float) :
    RightCommutative fun options : Options Float => options.adopt source where
  right_comm _ parameter parameter' := by
    cases parameter <;> cases parameter' <;> rfl

theorem adopt_all (options source : Options Float) {names : List ParameterName}
    (perm : names.Perm ParameterName.all) : names.foldl (·.adopt source) options = source :=
  perm.foldl_eq options

end Options

/-! ## Requests -/

namespace Solver

variable {solver : Solver Float}

/-- The request that sets a parameter to what it is listed as. -/
def request (parameter : Parameter) : Operation := .set parameter.name parameter.value

theorem get?_text (solver : Solver Float) (parameter : ParameterName) :
    solver.get? parameter.text = some (solver.options.parameterText parameter) := by
  cases parameter <;> rfl

/-- What a handle with valid options lists of a parameter is accepted for it by any other. -/
theorem set_listed (checked : solver.options.check = .ok ()) (other : Solver Float)
    (parameter : ParameterName) :
    other.set (solver.listed parameter).name (solver.listed parameter).value =
      (.ok (), { other with options := other.options.adopt solver.options parameter }) := by
  rw [listed_name, listed_value, set, ParameterName.ofText?_text]
  dsimp only
  rw [Options.withParameter_parameterText fun _ => checked]

/-- Requests for what a handle lists leave all its options behind, and nothing else. -/
theorem after_request_listed (checked : solver.options.check = .ok ()) (other : Solver Float)
    (names : List ParameterName) :
    other.after (names.map fun name => request (solver.listed name)) =
      { other with options := names.foldl (·.adopt solver.options) other.options } := by
  induction names generalizing other with
  | nil => rfl
  | cons name rest ih =>
    have step : other.perform (request (solver.listed name)) =
        { other with options := other.options.adopt solver.options name } := by
      rw [request, perform, set_listed checked]
    change (other.perform (request (solver.listed name))).after _ = _
    rw [step, ih]
    rfl

/-- Parameters as they are listed, in another order, are listed in an order of their names. -/
private theorem exists_names {listed : List Parameter} (perm : listed.Perm solver.parameters) :
    ∃ names : List ParameterName, names.Perm ParameterName.all ∧
      listed = names.map solver.listed := by
  have known : ∀ parameter ∈ listed, ∃ name, solver.listed name = parameter :=
    fun parameter member =>
    let ⟨name, _, same⟩ := List.mem_map.mp (perm.mem_iff.mp member)
    ⟨name, same⟩
  let back (parameter : Parameter) : ParameterName :=
    (ParameterName.ofText? parameter.name).getD .verify
  have back_listed (name : ParameterName) : back (solver.listed name) = name := by
    simp only [back, listed_name, ParameterName.ofText?_text, Option.getD_some]
  refine ⟨listed.map back, ?_, ?_⟩
  · refine (perm.map back).trans (List.Perm.of_eq ?_)
    rw [parameters, List.map_map]
    exact (List.map_congr_left fun name _ => back_listed name).trans (List.map_id _)
  · rw [List.map_map]
    refine (List.map_id listed).symm.trans (List.map_congr_left fun parameter member => ?_)
    obtain ⟨name, rfl⟩ := known parameter member
    exact (congrArg solver.listed (back_listed name)).symm

/-- What is read after an accepted request is accepted again, and changes nothing. -/
theorem set_get? {name value : String} (accepted : (solver.set name value).1 = .ok ()) :
    ∃ text, (solver.set name value).2.get? name = some text ∧
      (solver.set name value).2.set name text = (.ok (), (solver.set name value).2) := by
  rcases solver.set_cases name value with
    ⟨refusal, refused⟩ | ⟨parameter, changed, known, success, performed⟩
  · rw [refused] at accepted
    contradiction
  · have valid := (Options.adopt_of_withParameter success).2
    obtain rfl := ParameterName.text_of_ofText? known
    rw [performed]
    refine ⟨changed.parameterText parameter, get?_text _ parameter, ?_⟩
    rw [set, known]
    dsimp only
    rw [Options.withParameter_parameterText (fun limit => valid (.inl limit)), Options.adopt_self]

/-- All that a handle with valid options lists, set on another handle in whatever order, is accepted
every time, leaves all its options behind and nothing else. And whatever was set by name is read as
a text that, set again, is accepted and changes nothing. -/
theorem after_listed {solver other : Solver Float} (checked : solver.options.check = .ok ())
    {listed : List Parameter} (perm : listed.Perm solver.parameters) :
    other.after (listed.map request) = { other with options := solver.options } ∧
    (∀ before parameter later, listed = before ++ parameter :: later →
      ((other.after (before.map request)).set parameter.name parameter.value).1 = .ok ()) ∧
    ∀ (handle : Solver Float) (name value : String), (handle.set name value).1 = .ok () →
      ∃ text, (handle.set name value).2.get? name = some text ∧
        (handle.set name value).2.set name text = (.ok (), (handle.set name value).2) := by
  obtain ⟨names, order, rfl⟩ := exists_names perm
  refine ⟨?_, fun before parameter later split => ?_, fun handle name value => set_get?⟩
  · rw [List.map_map]
    refine (after_request_listed checked other names).trans ?_
    rw [Options.adopt_all _ _ order]
  · have member : parameter ∈ names.map solver.listed :=
      split ▸ List.mem_append_right _ List.mem_cons_self
    obtain ⟨name, _, rfl⟩ := List.mem_map.mp member
    rw [set_listed checked]

/-- Options with an invalid limit are replaced by valid ones, the limit last but one. -/
theorem after_listed_reversed :
    let solver := ofOptions ({ costLimit := 0.1, initialization := .zero } : Options Float)
    let other := ofOptions ({ costLimit := 0 / 0, verify := true } : Options Float)
    (other.set "cost_limit" (costText other.options.costLimit)).1.toOption = none ∧
      (other.after (solver.parameters.reverse.map request)).options = solver.options ∧
      ∃ text, (other.set "cost_limit" "1e-1").2.get? "cost_limit" = some text ∧
        (other.set "cost_limit" "1e-1").2.set "cost_limit" text =
          (.ok (), (other.set "cost_limit" "1e-1").2) := by
  intro solver other
  have valid : solver.options.check = .ok () := by
    rw [Options.check, if_neg (by decide +kernel), if_neg (by decide +kernel)]
  have accepted : (other.set "cost_limit" "1e-1").1.toOption = some () := by decide +kernel
  obtain ⟨ended, _, again⟩ :=
    @after_listed solver other valid _ (List.reverse_perm solver.parameters)
  refine ⟨by decide +kernel, congrArg Solver.options ended, again other _ _ ?_⟩
  cases success : (other.set "cost_limit" "1e-1").1 with
  | error refusal =>
    rw [success] at accepted
    contradiction
  | ok _ => rfl

end Solver

end LinearAssignment
