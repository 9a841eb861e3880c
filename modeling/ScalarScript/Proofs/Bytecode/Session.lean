import ScalarScript.Proofs.Bytecode.Compilation

/-! Compiled trees run one after another on one machine. Each run has the outcome of evaluating its
tree, whatever the machine's stack and history. A success leaves the stack as it was. A failure adds to
it the values of those left operands whose right sides were under way at the node that failed. -/
namespace ScalarScript

/-! ### Where an evaluation fails -/

inductive Side where
  | left | right

namespace Expr

/-- Evaluation comes to a node that fails, at the end of the path. -/
inductive FailsAt : Expr → List Side → Fault → Prop
  | leaf {c : Constant} {fault : Fault} (h : c.toValue = .error fault) : FailsAt (constant c) [] fault
  | here {op : Operator} {l r : Expr} {a b : Value} {fault : Fault} (hl : l.eval = .ok a) (hr : r.eval = .ok b)
    (h : op.apply a b = .error fault) : FailsAt (binary op.symbol l r) [] fault
  | left {op : Operator} {l r : Expr} {path : List Side} {fault : Fault} (h : FailsAt l path fault) :
    FailsAt (binary op.symbol l r) (.left :: path) fault
  | right {op : Operator} {l r : Expr} {path : List Side} {a : Value} {fault : Fault} (hl : l.eval = .ok a)
    (h : FailsAt r path fault) : FailsAt (binary op.symbol l r) (.right :: path) fault

/-- The left operands of the nodes that a path leaves to the right, outermost first. -/
def pending : Expr → List Side → List Expr
  | binary _ l _, .left :: path => l.pending path
  | binary _ l r, .right :: path => l :: r.pending path
  | _, _ => []

theorem FailsAt.eval_eq {e : Expr} {path : List Side} {fault : Fault} (h : FailsAt e path fault) :
    e.eval = .error fault := by
  induction h with
  | leaf h => exact h
  | here hl hr h =>
    rw [eval_binary, hl, hr]
    simp only [bind, Except.bind, h]
  | left _ ih =>
    rw [eval_binary, ih]
    rfl
  | right hl _ ih =>
    rw [eval_binary, hl, ih]
    rfl

/-- An evaluation fails at one node only. -/
theorem FailsAt.path_eq {e : Expr} {path other : List Side} {fault fault' : Fault} (h : FailsAt e path fault)
    (h' : FailsAt e other fault') : path = other := by
  induction h generalizing other with
  | leaf => cases h'; rfl
  | @here op l r a b fault hl hr _ =>
    generalize hs : op.symbol = symbol at h'
    cases h' with
    | here => rfl
    | left h' => exact absurd (hl.symm.trans h'.eval_eq) (by simp)
    | right _ h' => exact absurd (hr.symm.trans h'.eval_eq) (by simp)
  | @left op l r path fault h ih =>
    generalize hs : op.symbol = symbol at h'
    cases h' with
    | here hl => exact absurd (hl.symm.trans h.eval_eq) (by simp)
    | left h' => rw [ih h']
    | right hl => exact absurd (hl.symm.trans h.eval_eq) (by simp)
  | @right op l r path a fault hl h ih =>
    generalize hs : op.symbol = symbol at h'
    cases h' with
    | here _ hr => exact absurd (hr.symm.trans h.eval_eq) (by simp)
    | left h' => exact absurd (hl.symm.trans h'.eval_eq) (by simp)
    | right _ h' => rw [ih h']

theorem exists_failsAt {e : Expr} (hw : e.WellFormed) {fault : Fault} (h : e.eval = .error fault) :
    ∃ path, FailsAt e path fault := by
  induction hw with
  | constant c => exact ⟨[], .leaf h⟩
  | @binary op l r _ _ ihl ihr =>
    rw [eval_binary] at h
    cases hl : l.eval with
    | error f =>
      rw [hl] at h
      cases h
      obtain ⟨path, hp⟩ := ihl hl
      exact ⟨_, .left hp⟩
    | ok a =>
      cases hr : r.eval with
      | error f =>
        rw [hl, hr] at h
        cases h
        obtain ⟨path, hp⟩ := ihr hr
        exact ⟨_, .right hl hp⟩
      | ok b =>
        cases ho : op.apply a b with
        | error f =>
          simp only [hl, hr, bind, Except.bind, ho] at h
          cases h
          exact ⟨[], .here hl hr ho⟩
        | ok outcome =>
          simp only [hl, hr, bind, Except.bind, ho] at h
          cases h

/-- What a failure leaves behind are the values of the pending operands, the innermost on top. -/
theorem FailsAt.leftovers_eq {e : Expr} {path : List Side} {fault : Fault} (h : FailsAt e path fault) :
    ∃ values, (e.pending path).mapM eval = .ok values ∧ e.leftovers = values.reverse := by
  induction h with
  | leaf => exact ⟨[], rfl, rfl⟩
  | here hl hr => exact ⟨[], rfl, by simp only [leftovers, hl, hr, List.reverse_nil]⟩
  | left h ih =>
    obtain ⟨values, hv, hp⟩ := ih
    exact ⟨values, hv, by simp only [leftovers, h.eval_eq, hp]⟩
  | @right op l r path a fault hl h ih =>
    obtain ⟨values, hv, hp⟩ := ih
    refine ⟨a :: values, ?_, by simp only [leftovers, hl, h.eval_eq, hp, List.reverse_cons]⟩
    rw [pending, List.mapM_cons, hl, hv]
    rfl

end Expr

/-! ### Runs on one machine -/

/-- A run as seen from outside. -/
structure Run where
  before : Machine
  outcome : Except Fault Value
  after : Machine

namespace Machine

def attempt (m : Machine) (chunk : Chunk) : Run :=
  match Machine.run chunk m with
  | .ok v after => ⟨m, .ok v, after⟩
  | .error fault after => ⟨m, .error fault, after⟩

/-- Runs of chunks, each on the machine that the one before it left. -/
def runs (m : Machine) : List Chunk → List Run
  | [] => []
  | chunk :: rest => m.attempt chunk :: (m.attempt chunk).after.runs rest

theorem attempt_eq (m : Machine) (chunk : Chunk) : ∃ ip,
    m.attempt chunk =
      ⟨m, (chunk.execute m.stack).1, ⟨(chunk.execute m.stack).2, m.frames ++ [⟨chunk, ip⟩]⟩⟩ := by
  obtain ⟨ip, hr⟩ := run_eq_execute chunk m
  refine ⟨ip, ?_⟩
  rw [attempt, hr]
  rcases chunk.execute m.stack with ⟨_ | _, after⟩ <;> rfl

end Machine

/-- On any machine the two chunks have the same outcome and leave the same stack. -/
def Chunk.RunsLike (first second : Chunk) : Prop :=
  ∀ m : Machine, (m.attempt first).outcome = (m.attempt second).outcome ∧
    (m.attempt first).after.stack = (m.attempt second).after.stack

theorem Chunk.runsLike_of_execute {first second : Chunk} (h : ∀ stack, first.execute stack = second.execute stack) :
    first.RunsLike second := by
  intro m
  obtain ⟨ip, hfirst⟩ := m.attempt_eq first
  obtain ⟨ip', hsecond⟩ := m.attempt_eq second
  rw [hfirst, hsecond, h]
  exact ⟨rfl, rfl⟩

/-- The run does what evaluating the tree does, and keeps to the discipline of the stack. Where it fails,
the node that fails is the only one, and the values pending there are what the stack gains. -/
structure Run.Evaluates (run : Run) (e : Expr) : Prop where
  outcome : run.outcome = e.eval
  frames : ∃ frame, e.compile = .ok frame.chunk ∧ run.after.frames = run.before.frames ++ [frame]
  success : ∀ v, e.eval = .ok v → run.after.stack = run.before.stack
  failure : ∀ fault, e.eval = .error fault → ∃ path values, e.FailsAt path fault ∧
    (∀ other fault', e.FailsAt other fault' → other = path) ∧
    (e.pending path).mapM Expr.eval = .ok values ∧ run.after.stack = values.reverse ++ run.before.stack

theorem Machine.evaluates_attempt (m : Machine) {e : Expr} {chunk : Chunk} (h : e.compile = .ok chunk) :
    (m.attempt chunk).Evaluates e := by
  obtain ⟨hw, -, hl, rfl⟩ := Expr.compile_eq_ok_iff.1 h
  obtain ⟨ip, ha⟩ := m.attempt_eq e.layout
  rw [ha, Expr.execute_layout hw hl]
  constructor
  · cases e.eval <;> rfl
  · exact ⟨_, h, rfl⟩
  · intro v hv
    rw [hv]
  · intro fault hf
    obtain ⟨path, hp⟩ := Expr.exists_failsAt hw hf
    obtain ⟨values, hv, hleft⟩ := hp.leftovers_eq
    exact ⟨path, values, hp, fun _ _ h' => h'.path_eq hp, hv, by rw [hf, hleft]⟩

/-- Whatever a machine holds and whatever it ran before, compiled trees run on it as they evaluate. -/
theorem Machine.evaluates_runs (m : Machine) {trees : List Expr} {chunks : List Chunk}
    (h : List.Forall₂ (fun chunk e => e.compile = .ok chunk) chunks trees) :
    List.Forall₂ (fun run e => run.Evaluates e) (m.runs chunks) trees := by
  induction h generalizing m with
  | nil => exact .nil
  | cons h _ ih => exact .cons (m.evaluates_attempt h) (ih _)

/-- Texts have no difference, so the first run fails with one text pending; the second run succeeds. -/
theorem Machine.evaluates_runs_after_failure :
    List.Forall₂ (fun run e => run.Evaluates e)
      (Machine.runs ⟨[.empty], []⟩
        [⟨[5, 0, 0, 5, 0, 1, 5, 0, 0, 0x61, 0x60, 0xff], [⟨.string, .string "a"⟩, ⟨.string, .string "b"⟩]⟩,
          ⟨[5, 0, 0, 5, 0, 1, 0x60, 0xff], [⟨.string, .string "a"⟩, ⟨.string, .string "b"⟩]⟩])
      [.binary "+" (.constant ⟨.string, .string "a"⟩)
          (.binary "-" (.constant ⟨.string, .string "b"⟩) (.constant ⟨.string, .string "a"⟩)),
        .binary "+" (.constant ⟨.string, .string "a"⟩) (.constant ⟨.string, .string "b"⟩)] := by
  refine Machine.evaluates_runs _ (.cons ?_ (.cons ?_ .nil))
  · rfl
  · rfl

end ScalarScript
