import Plptools.Library.Dialogue
import Mathlib.Algebra.BigOperators.Group.List.Basic
import Mathlib.Algebra.GroupWithZero.Nat
import Mathlib.Algebra.Order.BigOperators.Group.List
import Mathlib.Algebra.Order.Group.Nat

/-!
# Programs with fuel

A program that goes on as long as the server lets it has fuel, and gives up when that is used up. With
more fuel such a program goes on where it gave up before. So it returns for some fuel just when there is
an end to what it exchanges with the server, provided that the fuel is used for something: for each
exchange, and for what comes with the answers.

Most of these programs are loops, made up of rounds. What a loop does is shown for one round.
-/

namespace Plptools.Library

namespace Dialogue

variable {σ Q R E S α β : Type}

/-- Exchanges are added to the log. -/
def Grows (x : Dialogue σ Q R α) : Prop := ∀ s, s.log <+: (x s).2.log

/-- A value adds nothing. -/
theorem grows_pure (a : α) : Grows (pure a : Dialogue σ Q R α) := fun s => List.prefix_refl s.log

/-- An exchange is added. -/
theorem grows_ask (answer : σ → Q → R × σ) (q : Q) : Grows (ask answer q) := fun s => List.prefix_append s.log _

/-- One program after the other. -/
theorem Grows.bind {x : Dialogue σ Q R α} {f : α → Dialogue σ Q R β} (hx : Grows x) (hf : ∀ a, Grows (f a)) :
    Grows (x >>= f) := fun s => (hx s).trans (hf _ _)

/-- What `x` returns is what `y` returns; where `x` gives up, `y` goes on. -/
def Below (x y : Dialogue σ Q R (Option α)) : Prop :=
  ∀ s, y s = x s ∨ (x s).1 = none ∧ (x s).2.log <+: (y s).2.log

/-- A program goes as long as itself. -/
theorem Below.refl (x : Dialogue σ Q R (Option α)) : Below x x := fun _ => .inl rfl

/-- One extension after the other. -/
theorem Below.trans {x y z : Dialogue σ Q R (Option α)} (hxy : Below x y) (hyz : Below y z) : Below x z := by
  intro s
  obtain hxy | ⟨hnone, hlog⟩ := hxy s
  · rw [← hxy]
    exact hyz s
  · obtain hyz | ⟨-, hlog'⟩ := hyz s
    · exact .inr ⟨hnone, hyz ▸ hlog⟩
    · exact .inr ⟨hnone, hlog.trans hlog'⟩

/-- Giving up at once. -/
theorem below_of_grows {y : Dialogue σ Q R (Option α)} (hy : Grows y) : Below (pure none) y :=
  fun s => .inr ⟨rfl, hy s⟩

/-- The same program first. -/
theorem Below.bind_left (x : Dialogue σ Q R β) {f g : β → Dialogue σ Q R (Option α)} (h : ∀ b, Below (f b) (g b)) :
    Below (x >>= f) (x >>= g) := fun s => h (x s).1 (x s).2

/-- A program that may give up first, and with it what follows. -/
theorem Below.bind {x y : Dialogue σ Q R (Option β)} (hxy : Below x y) {f g : Option β → Dialogue σ Q R (Option α)}
    (hf : f none = pure none) (hg : g none = pure none) (hgrows : ∀ b, Grows (g b))
    (h : ∀ b, Below (f (some b)) (g (some b))) : Below (x >>= f) (y >>= g) := by
  intro s
  rw [bind_apply, bind_apply]
  obtain hxy | ⟨hnone, hlog⟩ := hxy s
  · rw [hxy]
    cases (x s).1 with
    | none =>
      rw [hf, hg]
      exact .inl rfl
    | some b => exact h b _
  · rw [hnone, hf]
    exact .inr ⟨rfl, hlog.trans (hgrows _ _)⟩

/-- The exchanges of a session, each with what its answer weighs. -/
def cost (weight : R → ℕ) (s : Session σ Q R) : ℕ := (s.log.map fun e => weight e.2 + 1).sum

variable {weight : R → ℕ}

/-- More exchanges weigh more. -/
theorem cost_mono {s t : Session σ Q R} (h : s.log <+: t.log) : cost weight s ≤ cost weight t := by
  obtain ⟨log, hlog⟩ := h
  rw [cost, cost, ← hlog, List.map_append, List.sum_append]
  exact Nat.le_add_right _ _

/-- One exchange. -/
theorem cost_ask (answer : σ → Q → R × σ) (q : Q) (s : Session σ Q R) :
    cost weight (ask answer q s).2 = cost weight s + (weight (answer s.server q).1 + 1) := by
  rw [ask_apply, cost, List.map_append, List.sum_append]
  rfl

/-- An exchange weighs something. -/
theorem cost_ask_lt (answer : σ → Q → R × σ) (q : Q) (s : Session σ Q R) :
    cost weight s < cost weight (ask answer q s).2 := by
  rw [cost_ask]
  omega

/-- A program with fuel: the more it has, the longer it goes on, and what is used up of it is made up for
by the exchanges, as long as these are fine. -/
structure Fuelled (weight : R → ℕ) (fine : Q × R → Prop) (x : ℕ → Dialogue σ Q R (Option α)) : Prop where
  grows : ∀ n, Grows (x n)
  below : ∀ n, Below (x n) (x (n + 1))
  spent : ∀ n s, (x n s).1 = none → (∀ e ∈ (x n s).2.log, fine e) → n ≤ cost weight (x n s).2 + 1

namespace Fuelled

variable {fine : Q × R → Prop}

/-- More fuel lets a program go on. -/
theorem below_of_le {x : ℕ → Dialogue σ Q R (Option α)} (hx : Fuelled weight fine x) {n m : ℕ} (h : n ≤ m) :
    Below (x n) (x m) := by
  induction h with
  | refl => exact Below.refl _
  | step _ ih => exact ih.trans (hx.below _)

/-- With more fuel there are more exchanges. -/
theorem prefix_of_le {x : ℕ → Dialogue σ Q R (Option α)} (hx : Fuelled weight fine x) {n m : ℕ} (h : n ≤ m)
    (s : Session σ Q R) : (x n s).2.log <+: (x m s).2.log := by
  obtain heq | ⟨-, hlog⟩ := hx.below_of_le h s
  · exact heq ▸ List.prefix_rfl
  · exact hlog

/-- A program that has returned does not use more fuel. -/
theorem eq_of_le {x : ℕ → Dialogue σ Q R (Option α)} (hx : Fuelled weight fine x) {n m : ℕ} (h : n ≤ m)
    {s : Session σ Q R} (hreturn : (x n s).1.isSome) : x m s = x n s := by
  obtain heq | ⟨hnone, -⟩ := hx.below_of_le h s
  · exact heq
  · rw [hnone] at hreturn
    exact nomatch hreturn

/-- A program returns by fine exchanges just when there is an end to them, and all are fine. -/
theorem returns_iff {x : ℕ → Dialogue σ Q R (Option α)} (hx : Fuelled weight fine x) (s : Session σ Q R) :
    (∃ n, (x n s).1.isSome ∧ ∀ e ∈ (x n s).2.log, fine e) ↔
      (∃ bound, ∀ n, (x n s).2.log.length ≤ bound) ∧ ∀ n, ∀ e ∈ (x n s).2.log, fine e := by
  constructor
  · rintro ⟨n, hreturn, hfine⟩
    have hlonger (m : ℕ) : (x m s).2.log <+: (x n s).2.log := by
      obtain hle | hle := Nat.le_total m n
      · exact hx.prefix_of_le hle s
      · exact hx.eq_of_le hle hreturn ▸ List.prefix_rfl
    exact ⟨⟨_, fun m => (hlonger m).length_le⟩, fun m e he => hfine e ((hlonger m).subset he)⟩
  · rintro ⟨⟨bound, hbound⟩, hfine⟩
    -- the longest log of all: its cost is that of every other at most
    obtain ⟨n, hn⟩ : ∃ n, ∀ m, (x m s).2.log.length ≤ (x n s).2.log.length := by
      by_contra hgrows
      have hlong (k : ℕ) : ∃ n, k ≤ (x n s).2.log.length := by
        induction k with
        | zero => exact ⟨0, Nat.zero_le _⟩
        | succ k ih =>
          obtain ⟨n, hk⟩ := ih
          obtain ⟨m, hm⟩ := not_forall.mp (not_exists.mp hgrows n)
          exact ⟨m, Nat.succ_le_of_lt (Nat.lt_of_le_of_lt hk (Nat.not_le.mp hm))⟩
      obtain ⟨n, hmore⟩ := hlong (bound + 1)
      exact absurd (hbound n) (Nat.not_le.mpr hmore)
    have hcost (m : ℕ) : cost weight (x m s).2 ≤ cost weight (x n s).2 := by
      apply cost_mono
      obtain hle | hle := Nat.le_total m n
      · exact hx.prefix_of_le hle s
      · exact (hx.prefix_of_le hle s).eq_of_length_le (hn m) ▸ List.prefix_rfl
    refine ⟨cost weight (x n s).2 + 2, ?_, hfine _⟩
    rw [Option.isSome_iff_ne_none]
    intro hnone
    have hspent := hx.spent _ s hnone (hfine _)
    have hle := hcost (cost weight (x n s).2 + 2)
    omega

/-- A program that needs no fuel. -/
theorem const {x : Dialogue σ Q R (Option α)} (hx : Grows x) (hreturn : ∀ s, (x s).1 ≠ none) :
    Fuelled weight fine fun _ => x where
  grows _ := hx
  below _ := Below.refl x
  spent _ s hnone := absurd hnone (hreturn s)

/-- A value needs no fuel. -/
theorem pure (a : α) : Fuelled (σ := σ) weight fine fun _ => Pure.pure (some a) :=
  const (grows_pure _) fun _ => Option.some_ne_none a

/-- A program without fuel first. -/
theorem bind {x : Dialogue σ Q R β} (hx : Grows x) {f : ℕ → β → Dialogue σ Q R (Option α)}
    (hf : ∀ b, Fuelled weight fine fun n => f n b) : Fuelled weight fine fun n => x >>= f n where
  grows n := hx.bind fun b => (hf b).grows n
  below n := .bind_left x fun b => (hf b).below n
  spent n s hnone := (hf (x s).1).spent n (x s).2 hnone

/-- A program with fuel, and behind it what is done with its value. -/
theorem andThen {x : ℕ → Dialogue σ Q R (Option β)} (hx : Fuelled weight fine x)
    {f : ℕ → Option β → Dialogue σ Q R (Option α)} (hnone : ∀ n, f n none = Pure.pure none)
    (hf : ∀ b, Fuelled weight fine fun n => f n (some b)) : Fuelled weight fine fun n => x n >>= f n := by
  have hgrows (n : ℕ) (b : Option β) : Grows (f n b) := by
    cases b with
    | none =>
      rw [hnone]
      exact grows_pure _
    | some b => exact (hf b).grows n
  constructor
  · exact fun n => (hx.grows n).bind (hgrows n)
  · exact fun n => (hx.below n).bind (hnone n) (hnone (n + 1)) (hgrows (n + 1)) fun b => (hf b).below n
  · intro n s hout hfine
    rw [bind_apply] at hout hfine ⊢
    cases hb : (x n s).1 with
    | none =>
      rw [hb, hnone] at hfine
      rw [hnone]
      exact hx.spent n s hb hfine
    | some b =>
      rw [hb] at hout hfine
      exact (hf b).spent n _ hout hfine

/-- A value that is made something of. -/
theorem map {x : ℕ → Dialogue σ Q R (Option β)} (hx : Fuelled weight fine x) (g : β → α) :
    Fuelled weight fine fun n => x n >>= fun b => Pure.pure (b.map g) :=
  hx.andThen (fun _ => rfl) fun b => .pure (g b)

/-- One program or the other. -/
theorem ite {c : Prop} [Decidable c] {x y : ℕ → Dialogue σ Q R (Option α)} (hx : Fuelled weight fine x)
    (hy : Fuelled weight fine y) : Fuelled weight fine fun n => if c then x n else y n := by
  by_cases hc : c
  · simpa only [if_pos hc] using hx
  · simpa only [if_neg hc] using hy

end Fuelled

/-! ### Loops -/

/-- What is behind a round: giving up, the next round, or the end. -/
def next (loop : S → Dialogue σ Q R (Option α)) : Option (S ⊕ α) → Dialogue σ Q R (Option α)
  | none => pure none
  | some (.inl s) => loop s
  | some (.inr a) => pure (some a)

/-- A loop that needs fuel for each round, and none where it has ended. -/
structure IsLoop (loop : ℕ → S → Dialogue σ Q R (Option α)) (ended : S → Option α)
    (round : S → Dialogue σ Q R (Option (S ⊕ α))) : Prop where
  ends : ∀ n s a, ended s = some a → loop n s = pure (some a)
  out : ∀ s, ended s = none → loop 0 s = pure none
  goes : ∀ n s, ended s = none → loop (n + 1) s = round s >>= next (loop n)

namespace IsLoop

variable {loop loop' : ℕ → S → Dialogue σ Q R (Option α)} {ended : S → Option α}
  {round round' : S → Dialogue σ Q R (Option (S ⊕ α))}

/-- What is behind a round adds exchanges. -/
theorem grows_next {x : S → Dialogue σ Q R (Option α)} (hx : ∀ s, Grows (x s)) (r : Option (S ⊕ α)) :
    Grows (next x r) := by
  rcases r with _ | s | a
  · exact grows_pure _
  · exact hx s
  · exact grows_pure _

/-- A loop adds the exchanges of its rounds. -/
theorem grows (h : IsLoop loop ended round) (hround : ∀ s, Grows (round s)) (n : ℕ) (s : S) : Grows (loop n s) := by
  induction n generalizing s with
  | zero =>
    cases hended : ended s with
    | none => rw [h.out s hended]; exact grows_pure _
    | some a => rw [h.ends 0 s a hended]; exact grows_pure _
  | succ n ih =>
    cases hended : ended s with
    | none => rw [h.goes n s hended]; exact (hround s).bind (grows_next ih)
    | some a => rw [h.ends _ s a hended]; exact grows_pure _

/-- Rounds that add nothing that matters. -/
theorem silent (h : IsLoop loop ended round) {note : Q × R → Option E} (hround : ∀ s, Silent note (round s)) (n : ℕ)
    (s : S) : Silent note (loop n s) := by
  induction n generalizing s with
  | zero =>
    cases hended : ended s with
    | none => rw [h.out s hended]; exact silent_pure _
    | some a => rw [h.ends 0 s a hended]; exact silent_pure _
  | succ n ih =>
    cases hended : ended s with
    | none =>
      rw [h.goes n s hended]
      refine (hround s).bind fun r => ?_
      rcases r with _ | s | a
      · exact silent_pure _
      · exact ih s
      · exact silent_pure _
    | some a => rw [h.ends _ s a hended]; exact silent_pure _

/-- A loop whose rounds go on longer, with one more of them. -/
theorem below (h : IsLoop loop ended round) (h' : IsLoop loop' ended round') (hround : ∀ s, Below (round s) (round' s))
    (hgrows : ∀ s, Grows (round' s)) (n : ℕ) (s : S) : Below (loop n s) (loop' (n + 1) s) := by
  induction n generalizing s with
  | zero =>
    cases hended : ended s with
    | none => rw [h.out s hended]; exact below_of_grows (h'.grows hgrows 1 s)
    | some a => rw [h.ends 0 s a hended, h'.ends 1 s a hended]; exact Below.refl _
  | succ n ih =>
    cases hended : ended s with
    | none =>
      rw [h.goes n s hended, h'.goes (n + 1) s hended]
      refine (hround s).bind rfl rfl (grows_next (h'.grows hgrows (n + 1))) fun r => ?_
      rcases r with s | a
      · exact ih s
      · exact Below.refl _
    | some a => rw [h.ends _ s a hended, h'.ends _ s a hended]; exact Below.refl _

/-- A loop that returns has exchanged something if its first round does. -/
theorem cost_lt (h : IsLoop loop ended round) (hgrows : ∀ s, Grows (round s)) {n : ℕ} {s : S} {t : Session σ Q R}
    (hended : ended s = none) (hround : cost weight t < cost weight (round s t).2)
    (hreturn : (loop n s t).1 ≠ none) : cost weight t < cost weight (loop n s t).2 := by
  cases n with
  | zero =>
    rw [h.out s hended] at hreturn
    exact absurd rfl hreturn
  | succ n =>
    rw [h.goes n s hended, bind_apply]
    exact Nat.lt_of_lt_of_le hround (cost_mono (grows_next (h.grows hgrows n) _ _))

/-- Where a loop gives up, a round has done so, or each round has taken something of what `left` counts, or
has exchanged something. In the states that are come to `inv` holds. -/
theorem spent (h : IsLoop loop ended round) {fine : Q × R → Prop} (hgrows : ∀ s, Grows (round s)) {left : S → ℕ}
    {inv : S → Prop} (hround : ∀ s t s', inv s → ended s = none → (round s t).1 = some (.inl s') →
      (∀ e ∈ (round s t).2.log, fine e) → inv s' ∧ cost weight t + left s' + 1 ≤ cost weight (round s t).2 + left s)
    {k : ℕ} (hnone : ∀ s t, (round s t).1 = none → (∀ e ∈ (round s t).2.log, fine e) →
      k ≤ cost weight (round s t).2 + 1) {n : ℕ} {s : S} {t : Session σ Q R} (hs : inv s)
    (hout : (loop n s t).1 = none) (hfine : ∀ e ∈ (loop n s t).2.log, fine e) :
    k ≤ cost weight (loop n s t).2 + 1 ∨ n + cost weight t ≤ cost weight (loop n s t).2 + left s := by
  induction n generalizing s t with
  | zero =>
    have hle : cost weight t ≤ cost weight (loop 0 s t).2 := cost_mono (h.grows hgrows 0 s t)
    exact .inr (by omega)
  | succ n ih =>
    cases hended : ended s with
    | some a =>
      rw [h.ends _ s a hended] at hout
      exact nomatch hout
    | none =>
      rw [h.goes n s hended, bind_apply] at hout hfine ⊢
      have hbefore : ∀ e ∈ (round s t).2.log, fine e := fun e he =>
        hfine e ((grows_next (h.grows hgrows n) _ _).subset he)
      rcases hr : (round s t).1 with _ | s' | a
      · rw [hr] at hfine
        rw [next]
        exact .inl (hnone s t hr hfine)
      · rw [hr] at hout hfine
        obtain ⟨hinv, hstep⟩ := hround s t s' hs hended hr hbefore
        obtain hk | hrest := ih hinv hout hfine
        · exact .inl hk
        · rw [next]
          exact .inr (by omega)
      · rw [hr] at hout
        exact nomatch hout

end IsLoop

namespace Fuelled

variable {fine : Q × R → Prop}

/-- A loop of rounds with fuel, if each round takes something of what `left` counts, or exchanges something. -/
theorem loop {loop : ℕ → ℕ → S → Dialogue σ Q R (Option α)} {ended : S → Option α}
    {round : ℕ → S → Dialogue σ Q R (Option (S ⊕ α))} (h : ∀ n, IsLoop (loop n) ended (round n))
    (hround : ∀ s, Fuelled weight fine fun n => round n s) (left : S → ℕ) (inv : S → Prop)
    (hleft : ∀ n s t s', inv s → ended s = none → (round n s t).1 = some (.inl s') →
      (∀ e ∈ (round n s t).2.log, fine e) →
        inv s' ∧ cost weight t + left s' + 1 ≤ cost weight (round n s t).2 + left s)
    {s : S} (hinv : inv s) (hs : left s ≤ 1) : Fuelled weight fine fun n => loop n n s where
  grows n := (h n).grows (fun s => (hround s).grows n) n s
  below n := (h n).below (h (n + 1)) (fun s => (hround s).below n) (fun s => (hround s).grows (n + 1)) n s
  spent n t hout hfine := by
    obtain hspent | hspent := (h n).spent (fun s => (hround s).grows n) (hleft n) (fun s => (hround s).spent n) hinv hout
      hfine
    · exact hspent
    · omega

end Fuelled

/-- A round that asks for something if there is another one behind it. -/
structure Asks (weight : R → ℕ) (x : Dialogue σ Q R (Option (S ⊕ α))) : Prop where
  grows : Grows x
  returns : ∀ s, (x s).1 ≠ none
  cost_lt : ∀ s s', (x s).1 = some (.inl s') → cost weight s < cost weight (x s).2

/-- A round of one exchange. -/
theorem asks_ask (answer : σ → Q → R × σ) (q : Q) (step : R → S ⊕ α) :
    Asks weight (ask answer q >>= fun r => pure (some (step r))) where
  grows := (grows_ask answer q).bind fun _ => grows_pure _
  returns _ := Option.some_ne_none _
  cost_lt s _ _ := cost_ask_lt answer q s

/-- A round that is the last one. -/
theorem asks_pure (a : α) : Asks (σ := σ) (Q := Q) (S := S) weight (pure (some (.inr a))) where
  grows := grows_pure _
  returns _ := Option.some_ne_none _
  cost_lt _ _ h := nomatch h

/-- A loop that asks for something in each round. -/
theorem Fuelled.asking {loop : ℕ → S → Dialogue σ Q R (Option α)} {ended : S → Option α}
    {round : S → Dialogue σ Q R (Option (S ⊕ α))} {fine : Q × R → Prop} (h : IsLoop loop ended round)
    (hround : ∀ s, Asks weight (round s)) (s : S) : Fuelled weight fine fun n => loop n s :=
  .loop (fun _ => h) (fun s => .const (hround s).grows (hround s).returns) (fun _ => 0) (fun _ => True)
    (fun _ s t s' _ _ hgo _ => ⟨trivial, (hround s).cost_lt t s' hgo⟩) trivial (Nat.zero_le 1)

end Dialogue

end Plptools.Library
