import Mathlib.Data.Finset.Card
import Mathlib.Logic.Relation

/-!
# Worklists

A worklist explores what is reachable under a successor function that may fail.
It ends when all states lie in a finite set.
-/

namespace Worklist

variable {α β ε : Type} [DecidableEq α] {succ : α → Except ε (List (β × α))}

/-- The elements that are not yet known, each once. -/
def fresh (known : List α) : List α → List α
  | [] => []
  | a :: l => if a ∈ known then fresh known l else a :: fresh (known ++ [a]) l

/-- `known` are all states found, `queue` those to be visited, `table` the visited
ones with their successors. -/
def loop (succ : α → Except ε (List (β × α))) :
    Nat → List α → List α → List (α × List (β × α)) → Option (Except ε (List (α × List (β × α))))
  | _, _, [], table => some (.ok table)
  | 0, _, _ :: _, _ => none
  | fuel + 1, known, a :: queue, table =>
    match succ a with
    | .error e => some (.error e)
    | .ok l =>
      loop succ fuel (known ++ fresh known (l.map Prod.snd)) (queue ++ fresh known (l.map Prod.snd)) (table ++ [(a, l)])

def run (succ : α → Except ε (List (β × α))) (fuel : Nat) (a : α) : Option (Except ε (List (α × List (β × α)))) :=
  loop succ fuel [a] [a] []

def Next (succ : α → Except ε (List (β × α))) (a a' : α) : Prop := ∃ l, succ a = .ok l ∧ a' ∈ l.map Prod.snd

theorem loop_mono {r : Except ε (List (α × List (β × α)))} {fuel : Nat} :
    ∀ {fuel' : Nat} {known queue : List α} {table : List (α × List (β × α))}, fuel ≤ fuel' →
    loop succ fuel known queue table = some r → loop succ fuel' known queue table = some r := by
  induction fuel with
  | zero =>
    intro fuel' known queue table _ h
    cases queue with
    | nil => cases fuel' <;> exact h
    | cons a queue => cases h
  | succ fuel ih =>
    intro fuel' known queue table hle h
    obtain ⟨fuel', rfl⟩ := Nat.exists_eq_add_of_le' (Nat.le_trans (Nat.le_add_left 1 fuel) hle)
    cases queue with
    | nil => exact h
    | cons a queue =>
      rw [loop] at h ⊢
      cases ha : succ a with
      | error e =>
        rw [ha] at h
        exact h
      | ok l =>
        rw [ha] at h
        exact ih (Nat.le_of_succ_le_succ hle) h

/-! ## New elements -/

theorem mem_fresh {l : List α} : ∀ {known : List α} {a : α}, a ∈ fresh known l ↔ a ∈ l ∧ a ∉ known := by
  induction l with
  | nil => simp [fresh]
  | cons a' l ih =>
    intro known a
    rw [fresh]
    by_cases h : a' ∈ known
    · rw [if_pos h, ih, List.mem_cons]
      constructor
      · exact fun ha => ⟨.inr ha.1, ha.2⟩
      · rintro ⟨rfl | ha, hn⟩
        · exact absurd h hn
        · exact ⟨ha, hn⟩
    · rw [if_neg h, List.mem_cons, ih, List.mem_cons, List.mem_append, List.mem_singleton]
      constructor
      · rintro (rfl | ⟨ha, hn⟩)
        · exact ⟨.inl rfl, h⟩
        · exact ⟨.inr ha, fun hk => hn (.inl hk)⟩
      · rintro ⟨rfl | ha, hn⟩
        · exact .inl rfl
        · by_cases haa : a = a'
          · exact .inl haa
          · exact .inr ⟨ha, fun hk => hk.elim hn haa⟩

theorem nodup_append_fresh {l : List α} : ∀ {known : List α}, known.Nodup → (known ++ fresh known l).Nodup := by
  induction l with
  | nil => simp [fresh]
  | cons a l ih =>
    intro known h
    rw [fresh]
    split
    · exact ih h
    · rename_i ha
      have hk : (known ++ [a]).Nodup := by
        rw [List.nodup_append]
        refine ⟨h, List.nodup_singleton a, fun x hx y hy => ?_⟩
        rw [List.mem_singleton] at hy
        subst hy
        exact fun heq => ha (heq ▸ hx)
      have := ih hk
      rwa [List.append_assoc] at this

/-! ## The invariant -/

structure Explores (succ : α → Except ε (List (β × α))) (start : α) (U : Finset α) (known queue : List α)
    (table : List (α × List (β × α))) : Prop where
  known_eq : known = table.map Prod.fst ++ queue
  nodup : known.Nodup
  starts : known.head? = some start
  inside : ∀ a ∈ known, a ∈ U
  reached : ∀ a ∈ known, Relation.ReflTransGen (Next succ) start a
  visited : ∀ e ∈ table, succ e.1 = .ok e.2
  closed : ∀ e ∈ table, ∀ a ∈ e.2.map Prod.snd, a ∈ known

variable {start a : α} {U : Finset α} {known queue : List α} {table : List (α × List (β × α))}

theorem Explores.visited_lt (h : Explores succ start U known (a :: queue) table) : table.length < U.card := by
  have hsub : known.toFinset ⊆ U := by
    intro x hx
    exact h.inside x (List.mem_toFinset.mp hx)
  have hcard := Finset.card_le_card hsub
  rw [List.toFinset_card_of_nodup h.nodup, h.known_eq] at hcard
  simp only [List.length_append, List.length_map, List.length_cons] at hcard
  omega

theorem Explores.visit {l : List (β × α)} (h : Explores succ start U known (a :: queue) table) (hl : succ a = .ok l)
    (hU : ∀ a' ∈ l.map Prod.snd, a' ∈ U) :
    Explores succ start U (known ++ fresh known (l.map Prod.snd)) (queue ++ fresh known (l.map Prod.snd))
      (table ++ [(a, l)]) := by
  have ha : a ∈ known := by rw [h.known_eq]; simp
  constructor
  · rw [h.known_eq]
    simp
  · exact nodup_append_fresh h.nodup
  · rw [List.head?_append, h.starts]
    rfl
  · intro x hx
    rcases List.mem_append.mp hx with hx | hx
    · exact h.inside x hx
    · exact hU x (mem_fresh.mp hx).1
  · intro x hx
    rcases List.mem_append.mp hx with hx | hx
    · exact h.reached x hx
    · exact (h.reached a ha).tail ⟨l, hl, (mem_fresh.mp hx).1⟩
  · intro e he
    rcases List.mem_append.mp he with he | he
    · exact h.visited e he
    · rw [List.mem_singleton] at he
      subst he
      exact hl
  · intro e he x hx
    rw [List.mem_append]
    rcases List.mem_append.mp he with he | he
    · exact .inl (h.closed e he x hx)
    · rw [List.mem_singleton] at he
      subst he
      by_cases hk : x ∈ known
      · exact .inl hk
      · exact .inr (mem_fresh.mpr ⟨hx, hk⟩)

theorem Explores.loop (hU : ∀ a ∈ U, ∀ l, succ a = .ok l → ∀ a' ∈ l.map Prod.snd, a' ∈ U) {fuel : Nat} :
    ∀ {known queue : List α} {table : List (α × List (β × α))}, Explores succ start U known queue table →
    U.card ≤ fuel + table.length →
    (∃ table', Worklist.loop succ fuel known queue table = some (.ok table') ∧
      Explores succ start U (table'.map Prod.fst) [] table') ∨
    ∃ a e, Worklist.loop succ fuel known queue table = some (.error e) ∧ Relation.ReflTransGen (Next succ) start a ∧
      succ a = .error e := by
  induction fuel with
  | zero =>
    intro known queue table h hf
    cases queue with
    | nil =>
      left
      refine ⟨table, rfl, ?_⟩
      have hk := h.known_eq
      rw [List.append_nil] at hk
      exact hk ▸ h
    | cons a queue =>
      have := h.visited_lt
      omega
  | succ fuel ih =>
    intro known queue table h hf
    cases queue with
    | nil =>
      left
      refine ⟨table, rfl, ?_⟩
      have hk := h.known_eq
      rw [List.append_nil] at hk
      exact hk ▸ h
    | cons a queue =>
      have ha : a ∈ known := by rw [h.known_eq]; simp
      rw [Worklist.loop]
      cases hs : succ a with
      | error e => exact .inr ⟨a, e, rfl, h.reached a ha, hs⟩
      | ok l =>
        apply ih (h.visit hs (hU a (h.inside a ha) l hs))
        rw [List.length_append, List.length_singleton]
        omega

/-- With fuel for all states, the worklist visits what is reachable, each state
once, or fails where a reachable state has no successors. -/
theorem run_eq (hU : ∀ a ∈ U, ∀ l, succ a = .ok l → ∀ a' ∈ l.map Prod.snd, a' ∈ U) (ha : start ∈ U) {fuel : Nat}
    (hf : U.card ≤ fuel) :
    (∃ table, run succ fuel start = some (.ok table) ∧ (table.map Prod.fst).Nodup ∧
      (table.map Prod.fst).head? = some start ∧ (∀ e ∈ table, succ e.1 = .ok e.2) ∧
      ∀ a, a ∈ table.map Prod.fst ↔ Relation.ReflTransGen (Next succ) start a) ∨
    ∃ a e, run succ fuel start = some (.error e) ∧ Relation.ReflTransGen (Next succ) start a ∧ succ a = .error e := by
  have hstart : Explores succ start U [start] [start] [] := by
    refine ⟨rfl, List.nodup_singleton _, rfl, ?_, ?_, fun _ he => (List.not_mem_nil he).elim,
      fun _ he => (List.not_mem_nil he).elim⟩
    · intro a' ha'
      rw [List.mem_singleton] at ha'
      exact ha' ▸ ha
    · intro a' ha'
      rw [List.mem_singleton] at ha'
      exact ha' ▸ .refl
  rcases hstart.loop hU (show U.card ≤ fuel + [].length by simpa using hf) with ⟨table, hrun, h⟩ | ⟨a, e, hrun, hreach, hs⟩
  · left
    refine ⟨table, hrun, h.nodup, h.starts, h.visited, fun a => ⟨h.reached a, fun hr => ?_⟩⟩
    induction hr with
    | refl => exact List.mem_of_mem_head? h.starts
    | tail _ hstep ih =>
      obtain ⟨l, hl, hmem⟩ := hstep
      obtain ⟨e, he, rfl⟩ := List.mem_map.mp ih
      rw [h.visited e he, Except.ok.injEq] at hl
      subst hl
      exact h.closed e he _ hmem
  · exact .inr ⟨a, e, hrun, hreach, hs⟩

end Worklist
