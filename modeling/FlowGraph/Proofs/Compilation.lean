import FlowGraph.Proofs.LoweredProgram
import FlowGraph.Proofs.Reading
import FlowGraph.Text.Bytes

/-!
Lowering is correct for each program that is read from a text: when a function
returns, so does its lowered form, with the same calls to the outside on the
way and the same result.
-/

namespace FlowGraph

theorem Action.Proper.paired {labels : Nat} {given : ValueId → Prop} {i : Instr}
    (h : i.toAction.Proper labels given) : Lower.Paired i := by
  unfold Lower.Paired
  generalize i.toAction = a at h ⊢
  intro hop
  cases h with
  | binary | cmp => rfl
  | const | arg | call | br | brif | ret => rcases hop with hop | hop | hop | hop <;> cases hop

/-- A function that is read and passes the check can be lowered as it means. -/
theorem Outline.Valid.sane {o : Outline} (h : o.Valid) (hfault : o.graph.fault? = none) :
    Lower.Sane o.graph := by
  refine ⟨Graph.fault?_eq_none.mp hfault, o.nodup_instrs_graph, ?_⟩
  intro i hi
  have hmem : (i.toAction, i.id) ∈ o.graph.instrs.map (fun i => (i.toAction, i.id)) :=
    List.mem_map_of_mem hi
  rw [o.map_instrs_graph] at hmem
  obtain ⟨⟨a, k⟩, hak, heq⟩ := List.mem_map.mp hmem
  obtain rfl : a = i.toAction := congrArg Prod.fst heq
  exact (h.proper k _ (List.mk_mem_zipIdx_iff_getElem?.mp hak)).paired

namespace Program

theorem sane_of_wellRead {p : Program} (h : Text.WellRead p.functions)
    (hfault : ∀ g ∈ p.functions, g.fault? = none) :
    (∀ g ∈ p.functions, Lower.Sane g) ∧ (p.functions.map (·.name)).Nodup := by
  refine ⟨fun g hg => ?_, h.nodup_names⟩
  obtain ⟨o, ho, rfl⟩ := h.valid_of_mem hg
  exact ho.sane (hfault _ hg)

/-- When a function of a program that was read and passed the check returns, its lowered
form returns the same after the same calls. -/
theorem a_lowered_function_returns_the_same {path : String} {text : List UInt8} {p : Program}
    (hread : Text.read path text = .ok p) (hcheck : ∀ g ∈ p.functions, g.fault? = none)
    {m : Llvm.Module} (hlower : p.lower = .ok m) {i : Nat} {g : Graph}
    (hg : p.functions[i]? = some g) {args : List Int64} (hargs : (args.length : Int) = g.arity.toInt)
    {o : Oracle} {calls : List Event} {x : Int64}
    (hrun : (runs p.find? o).Behaves { now := g.activation args } (.returns calls x)) :
    ∃ f, m.functions[i]? = some f ∧ f.name = g.name ∧ f.params = args.length ∧
      m.Behaves f args o (.returns calls x) := by
  obtain ⟨-, hwell⟩ := Text.wellRead_of_read hread
  obtain ⟨hsane, hnames⟩ := sane_of_wellRead hwell hcheck
  obtain ⟨callee, hlinked, hfunctions⟩ := lower_spec hsane hnames hlower
  obtain ⟨f, c, hf, hname, hparams, hcallee, hcparams, hlowered⟩ := hfunctions i g hg
  refine ⟨f, hf, hname, ?_, hlowered.returns hlinked hcallee hcparams hrun⟩
  omega

/-- A program with a call of its own and a call to the outside. -/
def stepDown : Program where
  path := "down"
  functions := [
    Outline.graph {
      name := "less"
      blocks := [("in", [.arg 0, .const 1, .binary .sub 0 1, .ret [2]])]
      entry := some 0 },
    Outline.graph {
      name := "main"
      blocks := [
        ("start", [.arg 0, .const 0, .cmp "gt" 0 1, .brif 2 1 2]),
        ("yes", [.call "less" [0], .call "out" [4, 2], .ret [5]]),
        ("no", [.ret []])]
      entry := some 0 }]

def stepDownText : List UInt8 :=
  Text.bytesOf ("func less \x7b\nin:\n n = arg 0\n one = const 1\n m = sub n one\n ret m\n\x7d\n" ++
    "func main \x7b\nstart:\n n = arg 0\n zero = const 0\n c = cmp gt n zero\n brif c yes no\n" ++
    "yes:\n m = call less n\n r = call out m, c // 7\n ret r\nno:\n ret\n\x7d")

theorem a_lowered_step_down_returns_the_same :
    Text.read "down" stepDownText = .ok stepDown ∧
      ∃ m f, stepDown.lower = .ok m ∧ m.functions[1]? = some f ∧ f.name = "main" ∧ f.params = 1 ∧
        m.Behaves f [5] (fun _ e => e.args.sum) (.returns [⟨"out", [4, 1]⟩] 5) := by
  have hread : Text.read "down" stepDownText = .ok stepDown := by decide +kernel
  obtain ⟨m, hm⟩ : ∃ m, stepDown.lower = .ok m := ⟨_, rfl⟩
  have hcheck : ∀ g ∈ stepDown.functions, g.fault? = none := by decide +kernel
  obtain ⟨g, hg⟩ : ∃ g, stepDown.functions[1]? = some g := ⟨_, rfl⟩
  have hargs : (([5] : List Int64).length : Int) = g.arity.toInt := by
    cases hg
    decide +kernel
  have hrun : (runs stepDown.find? fun _ e => e.args.sum).Behaves { now := g.activation [5] }
      (.returns [⟨"out", [4, 1]⟩] 5) := by
    cases hg
    exact ⟨10, _, rfl, rfl, rfl⟩
  obtain ⟨f, hf, hname, hparams, hruns⟩ :=
    a_lowered_function_returns_the_same hread hcheck hm hg hargs hrun
  have hmain : g.name = "main" := by
    cases hg
    rfl
  exact ⟨hread, m, f, hm, hf, hname.trans hmain, hparams, hruns⟩

end Program

end FlowGraph
