import Sayiir.Interaction.Protocol
import Sayiir.Interaction.RelyGuarantee

/-!
# Runs with crashes and restarts

A `Machine` is a world that outlives the processes working on it. At most one
process runs at a time. It may be killed between any two of its operations, and
a new one may be launched whenever none is running; between all of these the
environment moves the world on its own.

`reachable_honours` turns a protocol that each launched program keeps to into an
invariant of every state that any number of crashes and restarts can reach.
-/

open Prog (Reach)

/-- A world, the process working on it, and what the last process reported if it
ended by itself. -/
structure Machine (Op : Type) (Resp : Op → Type) (R W α : Type) where
  world : W
  proc : Option (Prog Op Resp R α)
  reported : Option α

namespace Machine

variable {Op : Type} {Resp : Op → Type} {R W α : Type}

/-- The machine on which nothing has been started yet. -/
def init (w : W) : Machine Op Resp R W α := ⟨w, none, none⟩

/-- One step of a machine. `launch w p` says that `p` may be started in the world `w`. -/
inductive Step (h : (o : Op) → W → Resp o × W) (E : W → W → Prop)
    (launch : W → Prog Op Resp R α → Prop) :
    Machine Op Resp R W α → Machine Op Resp R W α → Prop
  | env {m : Machine Op Resp R W α} {w' : W} : E m.world w' →
      Step h E launch m { m with world := w' }
  | run {m : Machine Op Resp R W α} {p p' : Prog Op Resp R α} {w' : W} : m.proc = some p →
      Prog.Step h p m.world p' w' →
      Step h E launch m { m with world := w', proc := some p' }
  | finish {m : Machine Op Resp R W α} {a : α} : m.proc = some (.pure a) →
      Step h E launch m { m with proc := none, reported := some a }
  | kill {m : Machine Op Resp R W α} : m.proc.isSome →
      Step h E launch m { m with proc := none, reported := none }
  | launch {m : Machine Op Resp R W α} {p : Prog Op Resp R α} : m.proc = none →
      launch m.world p → Step h E launch m { m with proc := some p, reported := none }

/-- The states that a machine started in `w` can reach. -/
def Reachable (h : (o : Op) → W → Resp o × W) (E : W → W → Prop)
    (launch : W → Prog Op Resp R α → Prop) (w : W) (m : Machine Op Resp R W α) : Prop :=
  Relation.ReflTransGen (Step h E launch) (init w) m

variable {h : (o : Op) → W → Resp o × W} {E : W → W → Prop}
  {launch : W → Prog Op Resp R α → Prop}

/-- **An invariant of the world that the operations of a protocol keep holds in every state
reached by crashes and restarts**, if every launched program keeps to the protocol. -/
theorem reachable_honours {γ : Type} {π : Protocol Op Resp γ} {I : γ → W → Prop} {u : γ} {w : W}
    (h0 : I u w) (hE : ∀ g w w', E w w' → I g w → I g w')
    (hop : ∀ g w o, I g w → π.allows g o → ∃ g', I g' (h o w).2 ∧ π.next g o (h o w).1 g')
    (hl : ∀ g w p, launch w p → I g w → ∃ g', I g' w ∧ p.Honours π g')
    {m : Machine Op Resp R W α} (hr : Reachable h E launch w m) :
    ∃ g, I g m.world ∧ ∀ p, m.proc = some p → p.Honours π g := by
  induction hr with
  | refl => exact ⟨u, h0, nofun⟩
  | tail _ hs ih =>
    obtain ⟨g, hI, hp⟩ := ih
    cases hs with
    | env he => exact ⟨g, hE g _ _ he hI, hp⟩
    | run hproc hstep =>
      rcases Prog.Honours.step hstep (hp _ hproc) with ⟨rfl, hp'⟩ | ⟨o, ho, rfl, hp'⟩
      · exact ⟨g, hI, by rintro _ ⟨⟩; exact hp'⟩
      · obtain ⟨g', hI', hnext⟩ := hop g _ o hI ho
        exact ⟨g', hI', by rintro _ ⟨⟩; exact hp' g' hnext⟩
    | finish hproc => exact ⟨g, hI, nofun⟩
    | kill hproc => exact ⟨g, hI, nofun⟩
    | launch hproc hlaunch =>
      obtain ⟨g', hI', hp'⟩ := hl g _ _ hlaunch hI
      exact ⟨g', hI', by rintro _ ⟨⟩; exact hp'⟩

/-! ## Computed runs -/

/-- The processes of a machine and its environment make the steps of `Reach`. -/
theorem Reachable.run {w : W} {m : Machine Op Resp R W α} {p q : Prog Op Resp R α} {v : W}
    (hr : Reachable h E launch w m) (hp : m.proc = some p) (hq : Reach h E p m.world q v) :
    Reachable h E launch w { m with world := v, proc := some q } := by
  induction hq with
  | refl =>
    rw [← hp]
    exact hr
  | step _ hs ih => exact ih.tail (.run rfl hs)
  | env _ he ih => exact ih.tail (.env he)

/-- An idle machine may run a program to its end. -/
theorem Reachable.finish {w : W} {m : Machine Op Resp R W α} {p : Prog Op Resp R α}
    (hr : Reachable h E launch w m) (hp : m.proc = none) (hl : launch m.world p) :
    Reachable h E launch w ⟨(p.eval h m.world).2, none, some (p.eval h m.world).1⟩ :=
  (Reachable.run (hr.tail (.launch hp hl)) rfl (Prog.eval_reach p m.world)).tail (.finish rfl)

/-- An idle machine may run a program and be stopped after any operation. -/
theorem Reachable.crash {w : W} {m : Machine Op Resp R W α} {p : Prog Op Resp R α} {v : W}
    (hr : Reachable h E launch w m) (hp : m.proc = none) (hl : launch m.world p)
    (hv : v ∈ p.worlds h m.world) : Reachable h E launch w ⟨v, none, none⟩ := by
  obtain ⟨q, hq⟩ := Prog.mem_worlds_reach hv
  exact (Reachable.run (hr.tail (.launch hp hl)) rfl hq).tail (.kill rfl)

end Machine
