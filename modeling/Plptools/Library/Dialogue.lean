import Mathlib.Data.List.Perm.Subperm

/-!
# Dialogues with a server

A client sends requests to a server and goes on with the answers. The session holds the state of
the server and the log of all exchanges, so what a program of the client asked for can be read off
the session it leaves behind. What matters in a log is picked out by a function on exchanges; a
program is silent when it adds nothing that matters.

The last part is about things that are acquired and released: a list of uses is balanced when
nothing is released that is not held, and nothing is held at the end.
-/

namespace Plptools.Library

/-- The state of the server, and every exchange with it so far. -/
structure Session (σ Q R : Type) where
  server : σ
  log : List (Q × R)

/-- A program of the client: its result, and the session it leaves behind. -/
def Dialogue (σ Q R α : Type) : Type := Session σ Q R → α × Session σ Q R

namespace Dialogue

variable {σ Q R E α β : Type}

instance : Monad (Dialogue σ Q R) where
  pure a := fun s => (a, s)
  bind x f := fun s => match x s with
    | (a, s) => f a s

instance : LawfulMonad (Dialogue σ Q R) :=
  LawfulMonad.mk' _ (fun _ => rfl) (fun _ _ => rfl) fun _ _ _ => rfl

/-- Send a request and wait for the answer. -/
def ask (answer : σ → Q → R × σ) (q : Q) : Dialogue σ Q R R := fun s =>
  match answer s.server q with
  | (r, server) => (r, ⟨server, s.log ++ [(q, r)]⟩)

/-- A value leaves the session as it is. -/
@[simp] theorem pure_apply (a : α) (s : Session σ Q R) :
    (pure a : Dialogue σ Q R α) s = (a, s) := rfl

/-- A program goes on from the session that is left. -/
@[simp] theorem bind_apply (x : Dialogue σ Q R α) (f : α → Dialogue σ Q R β)
    (s : Session σ Q R) : (x >>= f) s = f (x s).1 (x s).2 := rfl

/-- A value that is made something of leaves the session as it is. -/
@[simp] theorem map_apply (f : α → β) (x : Dialogue σ Q R α) (s : Session σ Q R) :
    (f <$> x) s = (f (x s).1, (x s).2) := rfl

/-- An exchange is logged. -/
@[simp] theorem ask_apply (answer : σ → Q → R × σ) (q : Q) (s : Session σ Q R) :
    ask answer q s =
      ((answer s.server q).1, ⟨(answer s.server q).2, s.log ++ [(q, (answer s.server q).1)]⟩) := rfl

/-- What matters of the exchanges of a session. -/
def notes (note : Q × R → Option E) (s : Session σ Q R) : List E := s.log.filterMap note

/-- The program adds nothing that matters to the log. -/
def Silent (note : Q × R → Option E) (x : Dialogue σ Q R α) : Prop :=
  ∀ s, notes note (x s).2 = notes note s

/-- One more exchange in the log. -/
theorem notes_log (note : Q × R → Option E) (server : σ) (log : List (Q × R)) (e : Q × R) :
    notes note ⟨server, log ++ [e]⟩ = log.filterMap note ++ (note e).toList := by
  rw [notes, List.filterMap_append, List.filterMap_cons]
  cases note e <;> rfl

/-- An exchange is noted behind the others. -/
theorem notes_ask (note : Q × R → Option E) (answer : σ → Q → R × σ) (q : Q)
    (s : Session σ Q R) :
    notes note (ask answer q s).2 =
      notes note s ++ (note (q, (answer s.server q).1)).toList := by
  rw [ask_apply, notes_log, notes]

variable {note : Q × R → Option E}

/-- A value adds nothing. -/
theorem silent_pure (a : α) : Silent note (pure a : Dialogue σ Q R α) := fun _ => rfl

/-- One program after the other. -/
theorem Silent.bind {x : Dialogue σ Q R α} {f : α → Dialogue σ Q R β} (hx : Silent note x)
    (hf : ∀ a, Silent note (f a)) : Silent note (x >>= f) :=
  fun s => (hf (x s).1 (x s).2).trans (hx s)

/-- A request whose exchanges do not matter, whatever the answer. -/
theorem silent_ask {answer : σ → Q → R × σ} {q : Q} (h : ∀ r, note (q, r) = none) :
    Silent note (ask answer q) := by
  intro s
  rw [notes_ask, h, Option.toList_none, List.append_nil]

end Dialogue

/-- Something is acquired, or given back. -/
inductive Use (α : Type) where
  | acquire (a : α)
  | release (a : α)
deriving DecidableEq, Repr

namespace Use

variable {α : Type}

/-- What is acquired in a list of uses. -/
def acquired (uses : List (Use α)) : List α :=
  uses.filterMap fun
    | .acquire a => some a
    | .release _ => none

/-- What is released in a list of uses. -/
def released (uses : List (Use α)) : List α :=
  uses.filterMap fun
    | .acquire _ => none
    | .release a => some a

/-- Nothing is released before it is acquired, nor more often, and at the end everything that was
acquired is released. -/
structure Balanced (uses : List (Use α)) : Prop where
  held : ∀ seen, seen <+: uses → (released seen).Subperm (acquired seen)
  settled : (released uses).Perm (acquired uses)

/-- What is acquired by uses one behind the other. -/
@[simp] theorem acquired_append (first second : List (Use α)) :
    acquired (first ++ second) = acquired first ++ acquired second := List.filterMap_append

/-- What is released by uses one behind the other. -/
@[simp] theorem released_append (first second : List (Use α)) :
    released (first ++ second) = released first ++ released second := List.filterMap_append

/-- What is acquired is acquired. -/
@[simp] theorem acquired_map_acquire (as : List α) : acquired (as.map .acquire) = as := by
  simp [acquired, List.filterMap_map]

/-- Acquiring releases nothing. -/
@[simp] theorem released_map_acquire (as : List α) : released (as.map .acquire) = [] := by
  simp [released, List.filterMap_map]

/-- Releasing acquires nothing. -/
@[simp] theorem acquired_map_release (as : List α) : acquired (as.map .release) = [] := by
  simp [acquired, List.filterMap_map]

/-- What is released is released. -/
@[simp] theorem released_map_release (as : List α) : released (as.map .release) = as := by
  simp [released, List.filterMap_map]

/-- Acquisitions and then the release of the same things, in any order. -/
theorem balanced_of_perm {held freed : List α} (h : freed.Perm held) :
    Balanced (held.map .acquire ++ freed.map .release) where
  held := by
    intro seen hseen
    rcases List.prefix_or_prefix_of_prefix hseen (List.prefix_append _ _) with hearly | ⟨late, rfl⟩
    · obtain ⟨as, -, rfl⟩ := List.prefix_map_iff.mp hearly
      simp
    · obtain ⟨bs, hbs, rfl⟩ := List.prefix_map_iff.mp ((List.prefix_append_right_inj _).mp hseen)
      simpa using hbs.sublist.subperm.trans h.subperm
  settled := by simpa using h

/-- Acquisitions and then releases are balanced when they are of the same things. -/
theorem balanced_iff_perm {held freed : List α} :
    Balanced (held.map .acquire ++ freed.map .release) ↔ freed.Perm held := by
  refine ⟨fun hbalanced => ?_, balanced_of_perm⟩
  simpa using hbalanced.settled

end Use

end Plptools.Library
