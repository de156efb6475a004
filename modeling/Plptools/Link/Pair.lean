import Plptools.Link.Steps
import Plptools.Library.Run

/-!
# Two links on a line

Each end of a line runs a link. The frames on the way to an end arrive in the order in which they
were sent; any of them may be lost, and the first may be delivered again and again before it is
gone. What makes an end act is a call of its NCP, its retransmit thread, or an arriving frame. Each
of these is one step: no other call of the same link comes in between.
-/

namespace Plptools

/-- The two ends of a line. -/
inductive Side where
  | near
  | far
deriving DecidableEq

/-- The opposite end. -/
def Side.other : Side → Side
  | .near => .far
  | .far => .near

/-- The opposite of the opposite end. -/
@[simp] theorem Side.other_other (s : Side) : s.other.other = s := by cases s <;> rfl

/-- The opposite end is another one. -/
theorem Side.other_ne (s : Side) : s.other ≠ s := by cases s <;> decide

/-- An end is one of the two. -/
theorem Side.eq_or_eq_other (s t : Side) : t = s ∨ t = s.other := by
  cases s <;> cases t <;> simp [Side.other]

/-- What holds of both ends can be checked. -/
instance {P : Side → Prop} [DecidablePred P] : Decidable (∀ s, P s) :=
  decidable_of_iff (P .near ∧ P .far) ⟨fun h s => by cases s; exacts [h.1, h.2], fun h => ⟨h _, h _⟩⟩

/-- What holds of an end and of the opposite one holds of both. -/
theorem Side.forall_of {P : Side → Prop} (s : Side) (hself : P s) (hother : P s.other) : ∀ t, P t := by
  intro t
  rcases s.eq_or_eq_other t with rfl | rfl
  · exact hself
  · exact hother

/-- The links at both ends, and the frames on the way to each. -/
structure Pair where
  link : Side → Link
  wire : Side → List Packet

/-- A link whose frames have all been put on the wire. -/
def Link.quiet (l : Link) : Link := { l with sent := [] }

namespace Pair

/-- What happens on the line: an end sends a packet, its retransmit thread wakes up, the next frame
is delivered to it and may be delivered again, or a frame on the way to it is lost. -/
inductive Event where
  | submit (s : Side) (buff : List UInt8)
  | tick (s : Side)
  | deliver (s : Side) (again : Bool)
  | lose (s : Side) (i : ℕ)

/-- An end acts: the frames it sends are put on the wire. -/
def act (p : Pair) (s : Side) (op : Link → Link) : Pair :=
  { link := Function.update p.link s (op (p.link s).quiet).quiet
    wire := Function.update p.wire s.other (p.wire s.other ++ (op (p.link s).quiet).sent) }

/-- The frames on the way to an end become others. -/
def setWire (p : Pair) (s : Side) (frames : List Packet) : Pair :=
  { p with wire := Function.update p.wire s frames }

/-- One event on the line. -/
def step (env : Side → Env) (p : Pair) : Event → Pair
  | .submit s buff => p.act s (Link.send (env s) buff)
  | .tick s => p.act s (Link.retransmit (env s))
  | .deliver s again =>
    match p.wire s with
    | [] => p
    | f :: rest =>
      (p.setWire s (if again then f :: rest else rest)).act s (Link.receive (env s) f.bytes)
  | .lose s i => p.setWire s ((p.wire s).eraseIdx i)

/-- Two links are connected: what each has sent is on the way to the other. -/
def connect (start : Side → Link) : Pair :=
  { link := fun s => (start s).quiet
    wire := fun s => (start s.other).sent }

/-- The end that acts. -/
@[simp] theorem act_link_self (p : Pair) (s : Side) (op : Link → Link) :
    (p.act s op).link s = (op (p.link s).quiet).quiet := Function.update_self ..

/-- The other end does not act. -/
@[simp] theorem act_link_other (p : Pair) (s : Side) (op : Link → Link) :
    (p.act s op).link s.other = p.link s.other := Function.update_of_ne s.other_ne ..

/-- Nothing is on the way to the end that acts. -/
@[simp] theorem act_wire_self (p : Pair) (s : Side) (op : Link → Link) :
    (p.act s op).wire s = p.wire s := Function.update_of_ne s.other_ne.symm ..

/-- What it sends is on the way to the other end. -/
@[simp] theorem act_wire_other (p : Pair) (s : Side) (op : Link → Link) :
    (p.act s op).wire s.other = p.wire s.other ++ (op (p.link s).quiet).sent :=
  Function.update_self ..

/-- The other end acts. -/
@[simp] theorem act_other_link (p : Pair) (s : Side) (op : Link → Link) :
    (p.act s.other op).link s = p.link s := Function.update_of_ne s.other_ne.symm ..

/-- What the other end sends is on the way here. -/
@[simp] theorem act_other_wire (p : Pair) (s : Side) (op : Link → Link) :
    (p.act s.other op).wire s = p.wire s ++ (op (p.link s.other).quiet).sent := by
  have h := act_wire_other p s.other op
  rwa [Side.other_other] at h

/-- The frames on the way to this end. -/
@[simp] theorem setWire_wire_self (p : Pair) (s : Side) (frames : List Packet) :
    (p.setWire s frames).wire s = frames := Function.update_self ..

/-- Those on the way to the other end stay. -/
@[simp] theorem setWire_wire_other (p : Pair) (s : Side) (frames : List Packet) :
    (p.setWire s frames).wire s.other = p.wire s.other := Function.update_of_ne s.other_ne ..

/-- Frames that are lost are on the way to one end. -/
theorem setWire_sublist {p : Pair} {r : Side} {frames : List Packet} (hsub : frames.Sublist (p.wire r)) :
    ∀ s, ((p.setWire r frames).wire s).Sublist (p.wire s) := by
  refine r.forall_of ?_ ?_
  · rw [setWire_wire_self]
    exact hsub
  · rw [setWire_wire_other]

/-- What is left on the way when a frame has been delivered was on the way before. -/
theorem delivered_sublist {p : Pair} {s : Side} {f : Packet} {rest : List Packet}
    (hwire : p.wire s = f :: rest) (again : Bool) :
    (if again then f :: rest else rest).Sublist (p.wire s) := by
  rw [hwire]
  cases again with
  | true => exact List.Sublist.refl _
  | false => exact List.sublist_cons_self f rest

/-- A frame is lost, or an end acts. -/
theorem step_cases (env : Side → Env) (p : Pair) (e : Event) :
    (∃ s i, e = .lose s i ∧ p.step env e = p.setWire s ((p.wire s).eraseIdx i)) ∨
    (∃ s buff, e = .submit s buff ∧ p.step env e = p.act s (Link.send (env s) buff)) ∨
    (∃ s, e = .tick s ∧ p.step env e = p.act s (Link.retransmit (env s))) ∨
    (∃ s again, e = .deliver s again ∧ p.wire s = [] ∧ p.step env e = p) ∨
    (∃ s again f rest, e = .deliver s again ∧ p.wire s = f :: rest ∧ p.step env e =
      (p.setWire s (if again then f :: rest else rest)).act s (Link.receive (env s) f.bytes)) := by
  cases e with
  | lose s i => exact .inl ⟨s, i, rfl, rfl⟩
  | submit s buff => exact .inr (.inl ⟨s, buff, rfl, rfl⟩)
  | tick s => exact .inr (.inr (.inl ⟨s, rfl, rfl⟩))
  | deliver s again =>
    cases hwire : p.wire s with
    | nil => exact .inr (.inr (.inr (.inl ⟨s, again, rfl, hwire, by rw [step, hwire]⟩)))
    | cons f rest => exact .inr (.inr (.inr (.inr ⟨s, again, f, rest, rfl, hwire, by rw [step, hwire]⟩)))

end Pair

end Plptools
