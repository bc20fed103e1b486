import SysteMoC.ChannelQueue
import SysteMoC.Dataflow

/-!
# The channel operations of a firing

What a firing does step by step is done within the counts, and comes to what the
dataflow net does at once, whether it finishes its commits itself or a coupled simulator
does so later.
-/

namespace SysteMoC

namespace AbsQueue

variable {T : Type}

/-- The tokens that are not taken yet, with `c` places still to be given back and the
latency of the last `p` tokens not expired. -/
structure Loose (l : List T) (c p : Nat) (staged : Nat → Option T) (a : AbsQueue T) : Prop where
  tokens : a.visible ++ a.pipeline = l
  consumed : a.consumed.length = c
  pipeline : a.pipeline.length = p
  staged : a.staged = staged

variable {l : List T} {c p n : Nat} {staged : Nat → Option T} {a : AbsQueue T}

theorem Loose.length_eq (h : a.Loose l c p staged) : a.visible.length + p = l.length := by
  rw [← h.tokens, List.length_append, h.pipeline]

theorem Loose.room_eq (h : a.Loose l c p staged) : a.room n = n - (c + l.length) := by
  rw [room, h.consumed, h.pipeline, ← h.length_eq, Nat.add_assoc]

theorem Loose.visible_eq (h : a.Loose l c 0 staged) : a.visible = l := by
  rw [← h.tokens, List.length_eq_zero_iff.mp h.pipeline, List.append_nil]

end AbsQueue

section
variable {A K Z D : Type} [DecidableEq K]

def Task.Fits (depth : K → Nat) (aq : K → Option (AbsQueue D)) : Task A K Z D → Prop
  | .op k o => o.Kept ∧ ∃ a ∈ aq k, a.Within (depth k) o ∧ a.Placed o
  | .copy k k' n => k ≠ k' ∧ ∃ a ∈ aq k, ∃ a' ∈ aq k', n ≤ a.room (depth k) ∧ n ≤ a'.room (depth k') ∧
      ∀ i < n, (a.staged i).isSome
  | _ => False

def Task.run (initial : K → List D) (aq : K → Option (AbsQueue D)) : Task A K Z D → K → Option (AbsQueue D)
  | .op k o => Function.update aq k ((aq k).map fun a => a.step (initial k) o)
  | .copy k k' n => Function.update aq k' ((aq k').map fun a' =>
      { a' with staged := fun i => if i < n then (aq k).bind (·.staged i) else a'.staged i })
  | _ => aq

/-- The tasks, one after the other, each within the counts. -/
inductive Performs (depth : K → Nat) (initial : K → List D) :
    List (Task A K Z D) → (K → Option (AbsQueue D)) → (K → Option (AbsQueue D)) → Prop where
  | nil (aq) : Performs depth initial [] aq aq
  | cons {task todo aq aq'} (h : task.Fits depth aq) (hrest : Performs depth initial todo (task.run initial aq) aq') :
      Performs depth initial (task :: todo) aq aq'

def AllLoose (l : K → Option (List D)) (c p : K → Nat) (staged : K → Nat → Option D) (aq : K → Option (AbsQueue D)) : Prop :=
  ∀ k, Option.Rel (fun l a => AbsQueue.Loose l (c k) (p k) (staged k) a) (l k) (aq k)

def AllCalm (l : K → Option (List D)) (aq : K → Option (AbsQueue D)) : Prop :=
  AllLoose l (fun _ => 0) (fun _ => 0) (fun _ _ => none) aq

variable {depth : K → Nat} {initial : K → List D} {tasks tasks' : List (Task A K Z D)}
  {aq aq' aq'' : K → Option (AbsQueue D)} {l : K → Option (List D)} {c p : K → Nat} {staged : K → Nat → Option D} {k : K}

omit [DecidableEq K] in
theorem AllLoose.get (h : AllLoose l c p staged aq) {l₀ : List D} (hl : l k = some l₀) :
    ∃ a, aq k = some a ∧ a.Loose l₀ (c k) (p k) (staged k) := by
  have hk := h k
  rw [hl] at hk
  generalize aq k = q at hk
  cases hk with
  | some hloose => exact ⟨_, rfl, hloose⟩

theorem AllLoose.update (h : AllLoose l c p staged aq) {l₀ : List D} {n i : Nat} {f : Nat → Option D} {a : AbsQueue D}
    (ha : a.Loose l₀ n i f) : AllLoose (Function.update l k (some l₀)) (Function.update c k n) (Function.update p k i)
      (Function.update staged k f) (Function.update aq k (some a)) := by
  intro k'
  by_cases hk : k' = k
  · subst hk
    simp only [Function.update_self]
    exact .some ha
  · simp only [Function.update_of_ne hk]
    exact h k'

theorem Performs.append (h : Performs depth initial tasks aq aq') (h' : Performs depth initial tasks' aq' aq'') :
    Performs depth initial (tasks ++ tasks') aq aq'' := by
  induction h with
  | nil => exact h'
  | cons hfits _ ih => exact .cons hfits (ih h')

omit [DecidableEq K] in
theorem AllLoose.congr {l' : K → Option (List D)} {c' p' : K → Nat} {staged' : K → Nat → Option D} (h : AllLoose l c p staged aq)
    (hl : ∀ k, l' k = l k) (hc : ∀ k, c' k = c k) (hp : ∀ k, p' k = p k) (hs : ∀ k, staged' k = staged k) :
    AllLoose l' c' p' staged' aq := by
  rw [funext hl, funext hc, funext hp, funext hs]
  exact h

def commit (A Z : Type) (late : Bool) (k : K) (o o' : FifoOp D) : List (Task A K Z D) :=
  .op k o :: if late then [] else [.op k o']

namespace RuntimeFiringRule

def writeTask (A : Type) (infos : List (PortOutInfo (List (K ⊕ Z)))) (w : Nat × Nat × D) : Option (Task A K Z D) := do
  let info ← infos[w.1]?
  let s ← info.port.head?
  let k ← s.getLeft?
  return .op k (.write info.produced w.2.1 w.2.2)

/-- `duplicateOutput` and the commits of a port's channels; reset channels are committed at once. -/
def commOut (A D : Type) (late : Bool) (info : PortOutInfo (List (K ⊕ Z))) : List (Task A K Z D) :=
  (match info.port with
    | .inl k :: sinks => sinks.filterMap fun s => s.getLeft?.map fun k' => .copy k k' info.produced
    | _ => []) ++
  info.port.flatMap fun s =>
    match s with
    | .inl k => commit A Z late k (.entryStart info.produced) (.entryFinish info.produced false)
    | .inr z => [.produce z info.produced]

/-- The writes of an action, then the commits of its ports. -/
def tasksOf (A : Type) {S : Type} (late : Bool) (fr : RuntimeFiringRule K (List (K ⊕ Z)) S) (writes : List (Nat × Nat × D)) :
    List (Task A K Z D) :=
  writes.filterMap (writeTask A fr.portOutInfos) ++
  fr.portInInfos.flatMap (fun info => commit A Z late info.port (.outletStart info.consumed) (.outletFinish info.consumed)) ++
  fr.portOutInfos.flatMap (commOut A D late)

omit [DecidableEq K] in
theorem tasksOf_false {S : Type} {fr : RuntimeFiringRule K (List (K ⊕ Z)) S} {writes : List (Nat × Nat × D)} :
    fr.tasksOf A false writes = fr.tasks A writes := rfl

end RuntimeFiringRule

/-- What a commit leaves in the queue. -/
def AbsQueue.commit (late : Bool) (ts : List D) (a : AbsQueue D) (o o' : FifoOp D) : AbsQueue D :=
  if late then a.step ts o else (a.step ts o).step ts o'

theorem performs_commit (late : Bool) (depth : K → Nat) (initial : K → List D) (o o' : FifoOp D) {a : AbsQueue D}
    (ha : aq k = some a) (ho : o.Kept) (hw : a.Within (depth k) o) (hp : a.Placed o) (ho' : o'.Kept)
    (hw' : (a.step (initial k) o).Within (depth k) o') (hp' : (a.step (initial k) o).Placed o') :
    Performs depth initial (commit A Z late k o o') aq (Function.update aq k (some (a.commit late (initial k) o o'))) := by
  refine .cons ⟨ho, a, ha, hw, hp⟩ ?_
  cases late with
  | true =>
    simp only [Task.run, ha, Option.map_some, AbsQueue.commit, if_true]
    exact .nil _
  | false =>
    refine .cons ⟨ho', a.step (initial k) o, ?_, hw', hp'⟩ ?_
    · rw [Task.run, ha, Function.update_self]
      rfl
    · simp only [Task.run, ha, Option.map_some, Function.update_self, Function.update_idem, AbsQueue.commit,
        Bool.false_eq_true, if_false]
      exact .nil _

/-! ## Taking tokens -/

theorem AbsQueue.Loose.taken {l : List D} {c p n : Nat} {f : Nat → Option D} {a : AbsQueue D} (late : Bool) (ts : List D)
    (h : a.Loose l c p f) (hn : n ≤ a.visible.length) :
    (a.commit late ts (.outletStart n) (.outletFinish n)).Loose (l.drop n) (c + if late then n else 0) p f := by
  have htokens : a.visible.drop n ++ a.pipeline = l.drop n := by rw [← h.tokens, List.drop_append_of_le_length hn]
  have hlen : (a.consumed ++ a.visible.take n).length = c + n := by
    rw [List.length_append, h.consumed, List.length_take_of_le hn]
  cases late with
  | true => exact ⟨htokens, hlen, h.pipeline, h.staged⟩
  | false =>
    refine ⟨htokens, ?_, h.pipeline, h.staged⟩
    simp only [AbsQueue.commit, AbsQueue.step, Bool.false_eq_true, if_false, List.length_drop, hlen]
    omega

theorem performs_ins (late : Bool) (depth : K → Nat) (initial : K → List D) {infos : List (PortInInfo K)} :
    ∀ {l : K → Option (List D)} {c : K → Nat} {aq : K → Option (AbsQueue D)},
    (∀ k, ∀ l₀ ∈ l k, (onChan (infos.map fun info => (info.port, info.consumed)) k).sum + p k ≤ l₀.length) →
    (∀ info ∈ infos, (l info.port).isSome) → AllLoose l c p staged aq →
    ∃ aq', Performs depth initial (infos.flatMap fun info =>
        commit A Z late info.port (.outletStart info.consumed) (.outletFinish info.consumed)) aq aq' ∧
      AllLoose (fun k => (l k).map fun l₀ => l₀.drop (onChan (infos.map fun info => (info.port, info.consumed)) k).sum)
        (fun k => c k + if late then (onChan (infos.map fun info => (info.port, info.consumed)) k).sum else 0) p staged aq' := by
  induction infos with
  | nil =>
    intro l c aq _ _ h
    refine ⟨aq, .nil aq, h.congr (fun k => ?_) (fun k => ?_) (fun _ => rfl) fun _ => rfl⟩
    · simp [onChan]
    · simp [onChan]
  | cons info infos ih =>
    intro l c aq hle hsome h
    obtain ⟨l₀, hl₀⟩ := Option.isSome_iff_exists.mp (hsome info List.mem_cons_self)
    obtain ⟨a, ha, hloose⟩ := h.get hl₀
    have hsum := hle info.port l₀ hl₀
    have hlen := hloose.length_eq
    rw [List.map_cons, onChan_cons_self, List.sum_cons] at hsum
    have hn : info.consumed ≤ a.visible.length := by omega
    have hpair := performs_commit (A := A) (Z := Z) late depth initial (.outletStart info.consumed)
      (.outletFinish info.consumed) ha trivial hn trivial trivial
      (by simp only [AbsQueue.step, AbsQueue.Within, List.length_append, List.length_take_of_le hn, Nat.le_add_left]) trivial
    have hnext := h.update (k := info.port) (hloose.taken late (initial info.port) hn)
    simp only [Function.update_eq_self] at hnext
    have hle' : ∀ k, ∀ l₁ ∈ Function.update l info.port (some (l₀.drop info.consumed)) k,
        (onChan (infos.map fun info => (info.port, info.consumed)) k).sum + p k ≤ l₁.length := by
      intro k l₁ hl₁
      by_cases hk : info.port = k
      · subst hk
        rw [Function.update_self, Option.mem_some_iff] at hl₁
        rw [← hl₁, List.length_drop]
        omega
      · rw [Function.update_of_ne (Ne.symm hk)] at hl₁
        have hle := hle k l₁ hl₁
        rw [List.map_cons, onChan_cons_of_ne hk] at hle
        exact hle
    have hsome' : ∀ info' ∈ infos, (Function.update l info.port (some (l₀.drop info.consumed)) info'.port).isSome := by
      intro info' hinfo'
      by_cases hk : info'.port = info.port
      · rw [hk, Function.update_self]
        rfl
      · rw [Function.update_of_ne hk]
        exact hsome info' (List.mem_cons_of_mem _ hinfo')
    obtain ⟨aq', hperforms, hall⟩ := ih hle' hsome' hnext
    refine ⟨aq', hpair.append hperforms, hall.congr (fun k => ?_) (fun k => ?_) (fun _ => rfl) fun _ => rfl⟩
    · by_cases hk : info.port = k
      · subst hk
        rw [List.map_cons, onChan_cons_self, List.sum_cons, Function.update_self, hl₀, Option.map_some, Option.map_some,
          List.drop_drop]
      · rw [List.map_cons, onChan_cons_of_ne hk, Function.update_of_ne (Ne.symm hk)]
    · by_cases hk : info.port = k
      · subst hk
        rw [List.map_cons, onChan_cons_self, List.sum_cons, Function.update_self]
        cases late with
        | true => simp only [if_true, Nat.add_assoc]
        | false => rfl
      · rw [List.map_cons, onChan_cons_of_ne hk, Function.update_of_ne (Ne.symm hk)]

/-! ## Copying and committing -/

variable {f : Nat → Option D} {n : Nat}

/-- The sinks get what the first channel has staged. -/
theorem performs_copies (initial : K → List D) {sinks : List (K ⊕ Z)} : ∀ {staged : K → Nat → Option D}
    {aq : K → Option (AbsQueue D)}, (∀ s ∈ sinks, s.isLeft) → sinks.Nodup → .inl k ∉ sinks →
    (∀ k', .inl k' ∈ sinks → (∃ l₀ ∈ l k', c k' + l₀.length + n ≤ depth k') ∧ staged k' = fun _ => none) →
    (∃ l₀ ∈ l k, c k + l₀.length + n ≤ depth k) → (∀ i, (f i).isSome ↔ i < n) → staged k = f → AllLoose l c p staged aq →
    ∃ staged' aq',
      Performs depth initial (sinks.filterMap fun s => s.getLeft?.map fun k' => (.copy k k' n : Task A K Z D)) aq aq' ∧
      AllLoose l c p staged' aq' ∧ (∀ k', .inl k' ∈ sinks → staged' k' = f) ∧ ∀ k', .inl k' ∉ sinks → staged' k' = staged k' := by
  induction sinks with
  | nil =>
    intro staged aq _ _ _ _ _ _ _ h
    exact ⟨staged, aq, .nil aq, h, fun _ hk => absurd hk List.not_mem_nil, fun _ _ => rfl⟩
  | cons s sinks ih =>
    intro staged aq hleft hnodup hk hsinks hroom hf hstaged h
    obtain ⟨k', rfl⟩ := Sum.isLeft_iff.mp (hleft s List.mem_cons_self)
    obtain ⟨hk', hnodup⟩ := List.nodup_cons.mp hnodup
    rw [List.mem_cons, not_or] at hk
    have hne : k ≠ k' := fun h => hk.1 (by rw [h])
    obtain ⟨⟨l₀', hl₀', hroom'⟩, hnone⟩ := hsinks k' List.mem_cons_self
    obtain ⟨l₀, hl₀, hlen⟩ := id hroom
    obtain ⟨a', ha', hloose'⟩ := h.get hl₀'
    obtain ⟨a, ha, hloose⟩ := h.get hl₀
    have hfits : Task.Fits depth aq (.copy k k' n : Task A K Z D) := by
      refine ⟨hne, a, ha, a', ha', ?_, ?_, fun i hi => ?_⟩
      · rw [hloose.room_eq]
        omega
      · rw [hloose'.room_eq]
        omega
      · rw [hloose.staged, hstaged]
        exact (hf i).mpr hi
    have hcopied : AbsQueue.Loose l₀' (c k') (p k') f
        { a' with staged := fun i => if i < n then (aq k).bind (·.staged i) else a'.staged i } := by
      refine ⟨hloose'.tokens, hloose'.consumed, hloose'.pipeline, funext fun i => ?_⟩
      simp only [ha, Option.bind_some, hloose.staged, hloose'.staged, hstaged, hnone]
      split
      · rfl
      · rename_i hi
        exact (Option.not_isSome_iff_eq_none.mp fun hsome => hi ((hf i).mp hsome)).symm
    have hnext := h.update (k := k') hcopied
    rw [← Option.mem_def.mp hl₀', Function.update_eq_self, Function.update_eq_self, Function.update_eq_self] at hnext
    have hsinks' : ∀ k'', .inl k'' ∈ sinks →
        (∃ l₀ ∈ l k'', c k'' + l₀.length + n ≤ depth k'') ∧ Function.update staged k' f k'' = fun _ => none := by
      intro k'' hk''
      have hne' : k'' ≠ k' := fun heq => hk' (heq ▸ hk'')
      rw [Function.update_of_ne hne']
      exact hsinks k'' (List.mem_cons_of_mem _ hk'')
    obtain ⟨staged', aq', hperforms, hall, hin, hout⟩ := ih (fun s hs => hleft s (List.mem_cons_of_mem _ hs)) hnodup hk.2
      hsinks' hroom hf (by rw [Function.update_of_ne hne]; exact hstaged) hnext
    refine ⟨staged', aq', .cons hfits ?_, hall, fun k'' hk'' => ?_, fun k'' hk'' => ?_⟩
    · rw [Task.run, ha']
      exact hperforms
    · rcases List.mem_cons.mp hk'' with heq | hk''
      · cases heq
        rw [hout k' hk', Function.update_self]
      · exact hin k'' hk''
    · rw [List.mem_cons, not_or] at hk''
      rw [hout k'' hk''.2, Function.update_of_ne fun heq => hk''.1 (by rw [heq])]

theorem AbsQueue.Loose.committed {l : List D} {c p : Nat} {a : AbsQueue D} (late : Bool) (ts : List D) (h : a.Loose l c p f)
    (hf : ∀ i, (f i).isSome ↔ i < n) : (a.commit late ts (.entryStart n) (.entryFinish n false)).Loose
      (l ++ Pick.tabulate f n) c (p + if late then (Pick.tabulate f n).length else 0) fun _ => none := by
  have hlen : (Pick.tabulate f n).length = n := Pick.length_tabulate fun i hi => (hf i).mpr hi
  have hprefix : a.stagedPrefix n = Pick.tabulate f n := by rw [stagedPrefix, h.staged]
  have htokens : a.visible ++ (a.pipeline ++ Pick.tabulate f n) = l ++ Pick.tabulate f n := by rw [← h.tokens, List.append_assoc]
  have hnone : (fun i => a.staged (i + n)) = fun _ => none := by
    funext i
    rw [h.staged]
    refine Option.not_isSome_iff_eq_none.mp fun hsome => ?_
    have := (hf (i + n)).mp hsome
    omega
  have hpipeline : (a.pipeline ++ Pick.tabulate f n).length = p + n := by rw [List.length_append, h.pipeline, hlen]
  cases late with
  | true =>
    refine ⟨?_, h.consumed, ?_, hnone⟩
    · simp only [AbsQueue.commit, AbsQueue.step, hprefix, if_true, htokens]
    · simp only [AbsQueue.commit, AbsQueue.step, hprefix, if_true, hpipeline, hlen]
  | false =>
    refine ⟨?_, h.consumed, ?_, hnone⟩
    · simp only [AbsQueue.commit, AbsQueue.step, hprefix, Bool.false_eq_true, if_false, List.append_assoc, List.take_append_drop,
        htokens]
    · simp only [AbsQueue.commit, AbsQueue.step, hprefix, Bool.false_eq_true, if_false, List.length_drop, hpipeline]
      omega

theorem performs_commits (late : Bool) (initial : K → List D) {port : List (K ⊕ Z)} : ∀ {l : K → Option (List D)} {p : K → Nat}
    {staged : K → Nat → Option D} {aq : K → Option (AbsQueue D)}, (∀ s ∈ port, s.isLeft) → port.Nodup →
    (∀ k, .inl k ∈ port → (∃ l₀ ∈ l k, c k + l₀.length + n ≤ depth k) ∧ staged k = f) → (∀ i, (f i).isSome ↔ i < n) →
    AllLoose l c p staged aq →
    ∃ l' p' staged' aq', Performs depth initial (port.flatMap fun s =>
        match s with
        | .inl k => commit A Z late k (.entryStart n) (.entryFinish n false)
        | .inr z => [.produce z n]) aq aq' ∧ AllLoose l' c p' staged' aq' ∧
      (∀ k, .inl k ∈ port → l' k = (l k).map (· ++ Pick.tabulate f n) ∧
        p' k = (p k + if late then (Pick.tabulate f n).length else 0) ∧ staged' k = fun _ => none) ∧
      ∀ k, .inl k ∉ port → l' k = l k ∧ p' k = p k ∧ staged' k = staged k := by
  induction port with
  | nil =>
    intro l p staged aq _ _ _ _ h
    exact ⟨l, p, staged, aq, .nil aq, h, fun _ hk => absurd hk List.not_mem_nil, fun _ _ => ⟨rfl, rfl, rfl⟩⟩
  | cons s port ih =>
    intro l p staged aq hleft hnodup hport hf h
    obtain ⟨k, rfl⟩ := Sum.isLeft_iff.mp (hleft s List.mem_cons_self)
    obtain ⟨hk, hnodup⟩ := List.nodup_cons.mp hnodup
    obtain ⟨⟨l₀, hl₀, hroom⟩, hstaged⟩ := hport k List.mem_cons_self
    obtain ⟨a, ha, hloose⟩ := h.get hl₀
    have hwithin : a.Within (depth k) (.entryStart n) := by
      rw [AbsQueue.Within, hloose.room_eq]
      omega
    have hplaced : a.Placed (.entryStart n) := by
      intro i hi
      rw [hloose.staged, hstaged]
      exact (hf i).mpr hi
    have hlen : (a.stagedPrefix n).length = n := Pick.length_tabulate hplaced
    have hpair := performs_commit (A := A) (Z := Z) late depth initial (.entryStart n)
      (.entryFinish n false) ha trivial hwithin hplaced rfl
      (by simp only [AbsQueue.step, AbsQueue.Within, List.length_append, hlen, Nat.le_add_left]) trivial
    rw [hstaged] at hloose
    have hnext := h.update (k := k) (hloose.committed late (initial k) hf)
    rw [Function.update_eq_self k c] at hnext
    have hport' : ∀ k', .inl k' ∈ port →
        (∃ l₁ ∈ Function.update l k (some (l₀ ++ Pick.tabulate f n)) k', c k' + l₁.length + n ≤ depth k') ∧
          Function.update staged k (fun _ => none) k' = f := by
      intro k' hk'
      have hne : k' ≠ k := fun heq => hk (heq ▸ hk')
      rw [Function.update_of_ne hne, Function.update_of_ne hne]
      exact hport k' (List.mem_cons_of_mem _ hk')
    obtain ⟨l', p', staged', aq', hperforms, hall, hin, hout⟩ :=
      ih (fun s hs => hleft s (List.mem_cons_of_mem _ hs)) hnodup hport' hf hnext
    refine ⟨l', p', staged', aq', ?_, hall, fun k' hk' => ?_, fun k' hk' => ?_⟩
    · rw [List.flatMap_cons]
      exact hpair.append hperforms
    · rcases List.mem_cons.mp hk' with heq | hk'
      · cases heq
        obtain ⟨hl', hp', hs'⟩ := hout k hk
        rw [hl', hp', hs', Function.update_self, Function.update_self, Function.update_self, Option.mem_def.mp hl₀]
        exact ⟨rfl, rfl, rfl⟩
      · have hne : k' ≠ k := fun heq => hk (heq ▸ hk')
        obtain ⟨hl', hp', hs'⟩ := hin k' hk'
        rw [hl', hp', hs', Function.update_of_ne hne, Function.update_of_ne hne]
        exact ⟨rfl, rfl, rfl⟩
    · rw [List.mem_cons, not_or] at hk'
      have hne : k' ≠ k := fun heq => hk'.1 (by rw [heq])
      obtain ⟨hl', hp', hs'⟩ := hout k' hk'.2
      rw [hl', hp', hs', Function.update_of_ne hne, Function.update_of_ne hne, Function.update_of_ne hne]
      exact ⟨rfl, rfl, rfl⟩

open RuntimeFiringRule in
structure Wrote (writes : List (Nat × Nat × D)) (infos : List (PortOutInfo (List (K ⊕ Z)))) (j : Nat)
    (staged : K → Nat → Option D) : Prop where
  head : ∀ m info k, infos[m]? = some info → info.port.head? = some (.inl k) → staged k = written writes (j + m)
  other : ∀ k, (∀ info ∈ infos, info.port.head? ≠ some (.inl k)) → staged k = fun _ => none

open RuntimeFiringRule in
theorem performs_outs [DecidableEq Z] (late : Bool) (initial : K → List D) {writes : List (Nat × Nat × D)}
    {infos : List (PortOutInfo (List (K ⊕ Z)))} :
    ∀ {j : Nat} {l : K → Option (List D)} {p : K → Nat} {staged : K → Nat → Option D} {aq : K → Option (AbsQueue D)},
    (∀ info ∈ infos, ∀ s ∈ info.port, s.isLeft) → (infos.flatMap PortOutInfo.port).Nodup →
    (∀ info ∈ infos, ∀ k, info.Feeds k → ∃ l₀ ∈ l k, c k + l₀.length + info.produced ≤ depth k) →
    (∀ m info, infos[m]? = some info → ∀ i, (written writes (j + m) i).isSome ↔ i < info.produced) →
    Wrote writes infos j staged → AllLoose l c p staged aq →
    ∃ aq', Performs depth initial (infos.flatMap (commOut A D late)) aq aq' ∧
      AllLoose (fun k => (l k).map (· ++ outputFrom writes k j infos)) c
        (fun k => p k + if late then (outputFrom writes k j infos).length else 0) (fun _ _ => none) aq' := by
  induction infos with
  | nil =>
    intro j l p staged aq _ _ _ _ hw h
    refine ⟨aq, .nil aq, h.congr (fun k => ?_) (fun _ => rfl) (fun k => ?_) fun k => ?_⟩
    · simp [outputFrom]
    · simp [outputFrom]
    · exact (hw.other k fun _ hinfo => absurd hinfo List.not_mem_nil).symm
  | cons info infos ih =>
    intro j l p staged aq hleft hnodup hroom hsome hw h
    rw [List.flatMap_cons, List.nodup_append] at hnodup
    obtain ⟨hport, hnodup, hdisj⟩ := hnodup
    -- the other ports have other channels
    have hother : ∀ info' ∈ infos, ∀ k, .inl k ∈ info'.port → .inl k ∉ info.port := fun info' hinfo' k hk hk' =>
      hdisj _ hk' _ (List.mem_flatMap.mpr ⟨info', hinfo', hk⟩) rfl
    obtain ⟨l', p', staged', aq₁, hperforms, hloose, hin, hout⟩ : ∃ l' p' staged' aq₁,
        Performs depth initial (commOut A D late info) aq aq₁ ∧ AllLoose l' c p' staged' aq₁ ∧
        (∀ k, .inl k ∈ info.port → l' k = (l k).map (· ++ Pick.tabulate (written writes j) info.produced) ∧
          p' k = (p k + if late then (Pick.tabulate (written writes j) info.produced).length else 0) ∧
          staged' k = fun _ => none) ∧
        ∀ k, .inl k ∉ info.port → l' k = l k ∧ p' k = p k ∧ staged' k = staged k := by
      have hf := hsome 0 info rfl
      rw [Nat.add_zero] at hf
      cases hinfo : info.port with
      | nil =>
        refine ⟨l, p, staged, aq, ?_, h, fun _ hk => absurd hk List.not_mem_nil, fun _ _ => ⟨rfl, rfl, rfl⟩⟩
        rw [commOut, hinfo]
        exact .nil aq
      | cons s sinks =>
        rw [hinfo] at hport
        obtain ⟨k₀, rfl⟩ := Sum.isLeft_iff.mp (hleft info List.mem_cons_self s (by rw [hinfo]; exact List.mem_cons_self))
        obtain ⟨hk₀, hsinks⟩ := List.nodup_cons.mp hport
        have hroom₀ : ∀ k, .inl k ∈ info.port → ∃ l₀ ∈ l k, c k + l₀.length + info.produced ≤ depth k := fun k hk =>
          hroom info List.mem_cons_self k (PortOutInfo.feeds_iff.mpr hk)
        rw [hinfo] at hroom₀
        have hstaged₀ : staged k₀ = written writes j := hw.head 0 info k₀ rfl (by rw [hinfo]; rfl)
        have hnone : ∀ k, .inl k ∈ sinks → staged k = fun _ => none := by
          refine fun k hk => hw.other k fun info' hinfo' hhead => ?_
          rcases List.mem_cons.mp hinfo' with rfl | hinfo'
          · rw [hinfo, List.head?_cons, Option.some.injEq] at hhead
            exact hk₀ (hhead ▸ hk)
          · refine hother info' hinfo' k (List.mem_of_mem_head? hhead) ?_
            rw [hinfo]
            exact List.mem_cons_of_mem _ hk
        have hleft' : ∀ s ∈ .inl k₀ :: sinks, s.isLeft := by
          intro s hs
          rw [← hinfo] at hs
          exact hleft info List.mem_cons_self s hs
        obtain ⟨staged₁, aq₁, hcopies, hloose₁, hin₁, hout₁⟩ := performs_copies (A := A) initial
          (fun s hs => hleft' s (List.mem_cons_of_mem _ hs)) hsinks hk₀
          (fun k hk => ⟨hroom₀ k (List.mem_cons_of_mem _ hk), hnone k hk⟩) (hroom₀ k₀ List.mem_cons_self) hf hstaged₀ h
        obtain ⟨l', p', staged', aq₂, hcommits, hloose₂, hin₂, hout₂⟩ := performs_commits (A := A) late initial hleft' hport
          (fun k hk => ⟨hroom₀ k hk, by
            rcases List.mem_cons.mp hk with heq | hk
            · cases heq
              rw [hout₁ k₀ hk₀, hstaged₀]
            · exact hin₁ k hk⟩) hf hloose₁
        refine ⟨l', p', staged', aq₂, ?_, hloose₂, hin₂, fun k hk => ⟨(hout₂ k hk).1, (hout₂ k hk).2.1, ?_⟩⟩
        · rw [commOut, hinfo]
          exact hcopies.append hcommits
        · rw [(hout₂ k hk).2.2, hout₁ k fun hk' => hk (List.mem_cons_of_mem _ hk')]
    have hw' : Wrote writes infos (j + 1) staged' := by
      refine ⟨fun m info' k hm hhead => ?_, fun k hk => ?_⟩
      · have hinfo' := List.mem_of_getElem? hm
        rw [(hout k (hother info' hinfo' k (List.mem_of_mem_head? hhead))).2.2, Nat.add_right_comm, Nat.add_assoc]
        exact hw.head (m + 1) info' k hm hhead
      · by_cases hk' : .inl k ∈ info.port
        · exact (hin k hk').2.2
        · rw [(hout k hk').2.2]
          refine hw.other k fun info' hinfo' hhead => ?_
          rcases List.mem_cons.mp hinfo' with rfl | hinfo'
          · exact hk' (List.mem_of_mem_head? hhead)
          · exact hk info' hinfo' hhead
    obtain ⟨aq', hperforms', hloose'⟩ := ih (fun info' hinfo' => hleft info' (List.mem_cons_of_mem _ hinfo')) hnodup
      (fun info' hinfo' k hk => by
        rw [(hout k (hother info' hinfo' k (PortOutInfo.feeds_iff.mp hk))).1]
        exact hroom info' (List.mem_cons_of_mem _ hinfo') k hk)
      (fun m info' hm => by
        rw [Nat.add_right_comm, Nat.add_assoc]
        exact hsome (m + 1) info' hm) hw' hloose
    refine ⟨aq', ?_, hloose'.congr (fun k => ?_) (fun _ => rfl) (fun k => ?_) fun _ => rfl⟩
    · rw [List.flatMap_cons]
      exact hperforms.append hperforms'
    · rw [outputFrom]
      by_cases hk : info.Feeds k
      · rw [(hin k (PortOutInfo.feeds_iff.mp hk)).1, if_pos hk, Option.map_map]
        refine Option.map_congr fun l₀ _ => ?_
        rw [Function.comp_apply, List.append_assoc]
      · rw [(hout k fun hk' => hk (PortOutInfo.feeds_iff.mpr hk')).1, if_neg hk, List.nil_append]
    · rw [outputFrom]
      by_cases hk : info.Feeds k
      · rw [(hin k (PortOutInfo.feeds_iff.mp hk)).2.1, if_pos hk, List.length_append]
        cases late with
        | true => simp only [if_true, Nat.add_assoc]
        | false => rfl
      · rw [(hout k fun hk' => hk (PortOutInfo.feeds_iff.mpr hk')).2.1, if_neg hk, List.nil_append]

/-! ## What the action writes -/

omit [DecidableEq K] in
theorem index_unique {infos : List (PortOutInfo (List (K ⊕ Z)))} (h : (infos.flatMap PortOutInfo.port).Nodup) {j j' : Nat}
    {info info' : PortOutInfo (List (K ⊕ Z))} {s : K ⊕ Z} (hj : infos[j]? = some info) (hj' : infos[j']? = some info')
    (hs : s ∈ info.port) (hs' : s ∈ info'.port) : j = j' := by
  obtain ⟨hlt, rfl⟩ := List.getElem?_eq_some_iff.mp hj
  obtain ⟨hlt', rfl⟩ := List.getElem?_eq_some_iff.mp hj'
  have hpairwise := List.pairwise_iff_getElem.mp (List.nodup_flatMap.mp h).2
  rcases Nat.lt_trichotomy j j' with hjj | hjj | hjj
  · exact absurd hs' (hpairwise j j' hlt hlt' hjj hs)
  · exact hjj
  · exact absurd hs (hpairwise j' j hlt' hlt hjj hs')

open RuntimeFiringRule in
theorem performs_writes (initial : K → List D) {infos : List (PortOutInfo (List (K ⊕ Z)))}
    (hnodup : (infos.flatMap PortOutInfo.port).Nodup)
    (hroom : ∀ info ∈ infos, ∀ k, info.Feeds k → ∃ l₀ ∈ l k, c k + l₀.length + info.produced ≤ depth k)
    {ws : List (Nat × Nat × D)} : ∀ {staged : K → Nat → Option D} {aq : K → Option (AbsQueue D)},
    (∀ w ∈ ws, ∃ info, infos[w.1]? = some info ∧ w.2.1 < info.produced) → AllLoose l c p staged aq →
    ∃ staged' aq', Performs depth initial (ws.filterMap (writeTask A infos)) aq aq' ∧ AllLoose l c p staged' aq' ∧
      (∀ j info k, infos[j]? = some info → info.port.head? = some (.inl k) → staged' k = ws.foldl (place j) (staged k)) ∧
      ∀ k, (∀ info ∈ infos, info.port.head? ≠ some (.inl k)) → staged' k = staged k := by
  induction ws with
  | nil =>
    intro staged aq _ h
    exact ⟨staged, aq, .nil aq, h, fun _ _ _ _ _ => rfl, fun _ _ => rfl⟩
  | cons w ws ih =>
    intro staged aq hws h
    have hrest : ∀ w ∈ ws, ∃ info, infos[w.1]? = some info ∧ w.2.1 < info.produced := fun w hw =>
      hws w (List.mem_cons_of_mem _ hw)
    obtain ⟨info, hinfo, hi⟩ := hws w List.mem_cons_self
    by_cases hhead : ∃ k, info.port.head? = some (.inl k)
    · obtain ⟨k, hk⟩ := hhead
      have hmem := List.mem_of_getElem? hinfo
      obtain ⟨l₀, hl₀, hlen⟩ := hroom info hmem k (PortOutInfo.feeds_iff.mpr (List.mem_of_mem_head? hk))
      obtain ⟨a, ha, hloose⟩ := h.get hl₀
      have htask : writeTask A infos w = some (.op k (.write info.produced w.2.1 w.2.2)) := by
        simp [writeTask, hinfo, hk]
      have hfits : Task.Fits depth aq (.op k (.write info.produced w.2.1 w.2.2) : Task A K Z D) := by
        refine ⟨trivial, a, ha, ⟨hi, ?_⟩, trivial⟩
        rw [hloose.room_eq]
        omega
      have hwritten : (a.step (initial k) (.write info.produced w.2.1 w.2.2)).Loose l₀ (c k) (p k)
          (Function.update (staged k) w.2.1 (some w.2.2)) := by
        refine ⟨hloose.tokens, hloose.consumed, hloose.pipeline, ?_⟩
        rw [← hloose.staged]
        rfl
      have hnext := h.update (k := k) hwritten
      rw [← Option.mem_def.mp hl₀, Function.update_eq_self, Function.update_eq_self, Function.update_eq_self] at hnext
      obtain ⟨staged', aq', hperforms, hall, hin, hout⟩ := ih hrest hnext
      refine ⟨staged', aq', ?_, hall, fun j info' k' hj hk' => ?_, fun k' hk' => ?_⟩
      · rw [List.filterMap_cons, htask]
        refine .cons hfits ?_
        rw [Task.run, ha]
        exact hperforms
      · rw [hin j info' k' hj hk', List.foldl_cons, place]
        by_cases heq : k' = k
        · subst heq
          rw [if_pos (index_unique hnodup hinfo hj (List.mem_of_mem_head? hk) (List.mem_of_mem_head? hk')),
            Function.update_self]
        · have hne : w.1 ≠ j := by
            rintro rfl
            rw [hinfo, Option.some.injEq] at hj
            subst hj
            rw [hk, Option.some.injEq, Sum.inl.injEq] at hk'
            exact heq hk'.symm
          rw [if_neg hne, Function.update_of_ne heq]
      · have hne : k' ≠ k := by
          rintro rfl
          exact hk' info hmem hk
        rw [hout k' hk', Function.update_of_ne hne]
    · have htask : writeTask A infos w = none := by
        rw [writeTask, hinfo, Option.bind_eq_bind, Option.bind_some]
        cases hport : info.port.head? with
        | none => rfl
        | some s =>
          cases s with
          | inl k => exact absurd ⟨k, hport⟩ hhead
          | inr z => rfl
      obtain ⟨staged', aq', hperforms, hall, hin, hout⟩ := ih hrest h
      refine ⟨staged', aq', ?_, hall, fun j info' k' hj hk' => ?_, hout⟩
      · rw [List.filterMap_cons, htask]
        exact hperforms
      · have hne : w.1 ≠ j := by
          rintro rfl
          rw [hinfo, Option.some.injEq] at hj
          subst hj
          exact hhead ⟨k', hk'⟩
        rw [hin j info' k' hj hk', List.foldl_cons, place, if_neg hne]

omit [DecidableEq K] in
theorem RuntimeFiringRule.of_written_isSome {j i : Nat} : ∀ {writes : List (Nat × Nat × D)} {f : Nat → Option D},
    (writes.foldl (place j) f i).isSome → (f i).isSome ∨ ∃ d, (j, i, d) ∈ writes := by
  intro writes
  induction writes with
  | nil => exact fun h => .inl h
  | cons w writes ih =>
    intro f h
    rcases ih h with h | ⟨d, h⟩
    · rw [place] at h
      split at h
      · rename_i hj
        by_cases hi : i = w.2.1
        · refine .inr ⟨w.2.2, ?_⟩
          rw [← hj, hi]
          exact List.mem_cons_self
        · rw [Function.update_of_ne hi] at h
          exact .inl h
      · exact .inl h
    · exact .inr ⟨d, List.mem_cons_of_mem _ h⟩

end

namespace Network

variable {A K Z Q T V D : Type} [DecidableEq A] [DecidableEq K] [DecidableEq Z] {net : Network A K Z Q T V D}
  {depth : K → Nat} {initial : K → List D} {m : Marking A K Q V D} {a : A} {t : T} {aq : K → Option (AbsQueue D)}

/-- What a rule asks for is there, beside what commits that are not finished hold back. -/
def Served {S : Type} (depth : K → Nat) (m : Marking A K Q V D) (c p : K → Nat) (fr : RuntimeFiringRule K (List (K ⊕ Z)) S) :
    Prop :=
  (∀ info ∈ fr.portInInfos, ∃ l ∈ m.queue info.port, info.required + p info.port ≤ l.length) ∧
    ∀ info ∈ fr.portOutInfos, ∀ k, info.Feeds k → ∃ l ∈ m.queue k, c k + l.length + info.required ≤ depth k

omit [DecidableEq A] [DecidableEq K] [DecidableEq Z] in
theorem Ready.served {S : Type} {fr : RuntimeFiringRule K (List (K ⊕ Z)) S} (h : Ready depth m fr) :
    Served depth m (fun _ => 0) (fun _ => 0) fr := by
  refine ⟨h.1, fun info hinfo k hk => ?_⟩
  obtain ⟨l, hl, hlen⟩ := h.place hinfo hk
  exact ⟨l, hl, by rw [Nat.zero_add]; exact hlen⟩

/-- The operations of a firing that has its tokens and places are within the counts, and
leave the queues of the firing. -/
theorem performs_tasks (late : Bool) (initial : K → List D) {c p : K → Nat} (hreg : net.Regular)
    (h : Served depth m c p (net.rule a t)) (haq : AllLoose m.queue c p (fun _ _ => none) aq) : ∃ c' p' aq',
    Performs depth initial ((net.rule a t).tasksOf A late (net.action a t (m.vars a) (heads m (net.rule a t))).2) aq aq' ∧
      AllLoose (net.fire m a t).queue c' p' (fun _ _ => none) aq' ∧ (late = false → c' = c ∧ p' = p) := by
  have hcomplete := hreg.complete a t (m.vars a) (heads m (net.rule a t))
  have hqueue : ∀ k, (net.fire m a t).queue k = ((m.queue k).map fun l => l.drop ((net.rule a t).consumption k)).map
      (· ++ (net.rule a t).output (net.action a t (m.vars a) (heads m (net.rule a t))).2 k) := by
    intro k
    rw [Option.map_map]
    rfl
  generalize (net.action a t (m.vars a) (heads m (net.rule a t))).2 = writes at hcomplete hqueue ⊢
  have hroom : ∀ info ∈ (net.rule a t).portOutInfos, ∀ k, info.Feeds k →
      ∃ l ∈ m.queue k, c k + l.length + info.produced ≤ depth k := by
    intro info hinfo k hk
    obtain ⟨l, hl, hlen⟩ := h.2 info hinfo k hk
    have := hreg.produced_le a t info hinfo
    exact ⟨l, hl, by omega⟩
  obtain ⟨staged, aq₁, hwrites, hloose₁, hin, hout⟩ := performs_writes (A := A) initial (hreg.nodup a t) hroom
    hcomplete.within haq
  have hle : ∀ k, ∀ l ∈ m.queue k, (net.rule a t).consumption k + p k ≤ l.length := by
    intro k l hl
    rcases hreg.consumed_le a t k with hzero | ⟨info, hinfo, rfl, hle⟩
    · obtain ⟨q, _, hloose⟩ := haq.get hl
      have := hloose.length_eq
      omega
    · obtain ⟨l', hl', hlen⟩ := h.1 info hinfo
      rw [hl] at hl'
      cases hl'
      omega
  have hsome : ∀ info ∈ (net.rule a t).portInInfos, (m.queue info.port).isSome := by
    intro info hinfo
    obtain ⟨l, hl, _⟩ := h.1 info hinfo
    rw [Option.mem_def.mp hl]
    rfl
  obtain ⟨aq₂, hins, hloose₂⟩ := performs_ins (A := A) (Z := Z) late depth initial hle hsome hloose₁
  have hwrote : Wrote writes (net.rule a t).portOutInfos 0 staged :=
    ⟨fun m info k hm hk => by rw [hin m info k hm hk, Nat.zero_add]; rfl, hout⟩
  have hwritten : ∀ j info, (net.rule a t).portOutInfos[j]? = some info →
      ∀ i, (RuntimeFiringRule.written writes (0 + j) i).isSome ↔ i < info.produced := by
    intro j info hj i
    rw [Nat.zero_add]
    constructor
    · intro hi
      rcases RuntimeFiringRule.of_written_isSome hi with hi | ⟨d, hd⟩
      · cases hi
      · obtain ⟨info', hinfo', hlt⟩ := hcomplete.within _ hd
        rw [hj, Option.some.injEq] at hinfo'
        rw [hinfo']
        exact hlt
    · intro hi
      exact RuntimeFiringRule.written_isSome (.inr (hcomplete.written j info hj i hi))
  -- what is taken leaves its place, which is given back at once or later
  have hroom' : ∀ info ∈ (net.rule a t).portOutInfos, ∀ k, info.Feeds k →
      ∃ l ∈ (m.queue k).map fun l => l.drop ((net.rule a t).consumption k),
        (c k + if late then (net.rule a t).consumption k else 0) + l.length + info.produced ≤ depth k := by
    intro info hinfo k hk
    obtain ⟨l, hl, hlen⟩ := hroom info hinfo k hk
    refine ⟨_, Option.mem_map_of_mem _ hl, ?_⟩
    have := hle k l hl
    rw [List.length_drop]
    split
    · omega
    · omega
  obtain ⟨aq', houts, hloose'⟩ := performs_outs (A := A) late initial (hreg.isLeft a t) (hreg.nodup a t) hroom' hwritten
    hwrote hloose₂
  refine ⟨_, _, aq', (hwrites.append hins).append houts, hloose'.congr hqueue (fun _ => rfl) (fun _ => rfl) fun _ => rfl, ?_⟩
  rintro rfl
  exact ⟨rfl, rfl⟩

end Network

end SysteMoC
