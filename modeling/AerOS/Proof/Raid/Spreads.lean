import AerOS.Proof.Raid.Places
import AerOS.Proof.Raid.Persist

namespace AerOS.Proof.Raid
open AerOS.Raid Lib Lib.Action
variable {D : Type} {io : Answers D} {m m' : Machine D} {volume : Volume D}
variable {place : Nat → D × Nat} {count done fuel index lba : Nat} {buffer : Run}
variable {slot offset here run low high : Nat} {member : D} {α : Type} {members : List D}

def placeOf (default : D) (m : Machine D) (volume : Volume D) (lba : Nat) : D × Nat :=
  ((volume.members (locate m volume lba 1).1).getD default, (locate m volume lba 1).2.1)

structure Distinct (volume : Volume D) : Prop where
  slots : ∀ member slot slot', slot < volume.count → slot' < volume.count →
    volume.members slot = some member → volume.members slot' = some member → slot = slot'

theorem lies_member (level : volume.level ≠ .mirror) (lies : Lies m volume lba slot offset) :
    ∃ member, volume.members slot = some member ∧ offset < m.usable member := by
  have inside : offset < memberLength m volume slot := by
    cases kind : volume.level with
    | linear => exact (lies.linear kind).2
    | stripe => exact (lies.stripe kind).2
    | mirror => exact absurd kind level
  unfold memberLength at inside
  cases there : volume.members slot with
  | none =>
    rw [there] at inside
    exact absurd inside (Nat.not_lt_zero _)
  | some member =>
    rw [there] at inside
    exact ⟨member, rfl, inside⟩

theorem placeOf_lies (default : D) (shape : Spread m volume) (level : volume.level ≠ .mirror)
    (bound : lba < volume.sectors) : ∃ slot member, Lies m volume lba slot (placeOf default m volume lba).2 ∧
      volume.members slot = some member ∧ (placeOf default m volume lba).1 = member ∧
      (placeOf default m volume lba).2 < m.usable member := by
  have positive := locate_positive shape level bound Nat.zero_lt_one
  have lies := @locate_lies D m volume lba 1 shape level 0 bound positive
  obtain ⟨member, there, below⟩ := lies_member level lies
  refine ⟨_, member, lies, there, ?_, below⟩
  unfold placeOf
  rw [there, Option.getD_some]

theorem mapped_placeOf (default : D) (shape : Spread m volume) (level : volume.level ≠ .mirror)
    (distinct : Distinct volume) : Mapped m volume (placeOf default m volume) := by
  refine ⟨?_, ?_, ?_⟩
  · intro lba bound _ bound' same
    obtain ⟨slot, member, lies, there, disk, -⟩ := placeOf_lies default shape level bound
    obtain ⟨slot', member', lies', there', disk', -⟩ := placeOf_lies default shape level bound'
    rw [← same] at lies' disk'
    obtain rfl := disk.symm.trans disk'
    obtain rfl := distinct.slots member slot slot' lies.bound lies'.bound there there'
    exact lies_injective level lies lies'
  · intro lba bound
    obtain ⟨slot, member, -, -, disk, below⟩ := placeOf_lies default shape level bound
    rw [disk]
    exact below
  intro lba want positive _
  have some := @locate_positive D m volume lba want shape level (by omega) positive
  have short := locate_le_want m volume lba want
  have first := @locate_lies D m volume lba want shape level 0 (by omega) some
  obtain ⟨member, there, -⟩ := lies_member level first
  refine ⟨_, member, (locate m volume lba want).2.1, (locate m volume lba want).2.2, rfl, there, some, short, ?_⟩
  intro k inside
  have bound : lba + k < volume.sectors := by omega
  obtain ⟨slot, member', lies, there', disk, -⟩ := placeOf_lies default shape level bound
  obtain ⟨rfl, same⟩ := lies_functional shape level lies (locate_lies shape level bound inside)
  obtain rfl := Option.mem_unique there' there
  exact Prod.ext disk same

theorem locate_congr (usable : m'.usable = m.usable) (volume : Volume D) (lba want : Nat) :
    locate m' volume lba want = locate m volume lba want := by
  have linear : ∀ left slot start,
      locateLinear m' volume lba want left slot start = locateLinear m volume lba want left slot start := by
    intro left
    induction left with
    | zero => exact fun _ _ => rfl
    | succ left ih =>
      intro slot start
      unfold locateLinear
      rw [usable]
      dsimp only
      rw [ih]
  unfold locate
  cases volume.level with
  | stripe => rfl
  | linear => exact linear _ _ _
  | mirror => exact linear _ _ _

theorem mapped_congr (usable : m'.usable = m.usable) (mapped : Mapped m volume place) :
    Mapped m' volume place := by
  refine ⟨mapped.injective, ?_, ?_⟩
  · rw [usable]
    exact mapped.usable
  intro lba want
  rw [locate_congr usable]
  exact mapped.located lba want

def sectorAt (m : Machine D) (place : D × Nat) : Sector := (m.disks place.1).data place.2

theorem sectorAt_store [DecidableEq D] (mapped : Mapped m volume place)
    (follows : ∀ k < run, place (here + k) = (member, offset + k)) (fits : here + run ≤ volume.sectors)
    (m₁ : Machine D) (data : Run) (bound : lba < volume.sectors) :
    sectorAt (m₁.store member offset run data) (place lba) =
      if here ≤ lba ∧ lba < here + run then data (lba - here) else sectorAt m₁ (place lba) := by
  unfold sectorAt
  split
  next _ =>
    have there := follows (lba - here) (by omega)
    rw [show here + (lba - here) = lba by omega] at there
    rw [there, store_data, if_pos (by omega), Nat.add_sub_cancel_left]
  next _ =>
    by_cases disk : (place lba).1 = member
    · rw [disk, store_data, if_neg]
      rintro ⟨low, _⟩
      have there := follows ((place lba).2 - offset) (by omega)
      rw [Nat.add_sub_cancel' low, ← disk] at there
      have same := mapped.injective _ (by omega) lba bound there
      omega
    · rw [store_other disk]

structure Spares (volume : Volume D) (place : Nat → D × Nat) (low high : Nat) (m m' : Machine D) : Prop where
  volumes : m'.volumes = m.volumes
  usable : m'.usable = m.usable
  sectors : ∀ lba < volume.sectors, ¬ (low ≤ lba ∧ lba < high) →
    sectorAt m' (place lba) = sectorAt m (place lba)

theorem spares_of_disks (volumes : m'.volumes = m.volumes) (disks : m'.disks = m.disks) (low high : Nat) :
    Spares volume place low high m m' := by
  refine ⟨volumes, ?_, ?_⟩
  · unfold Machine.usable
    rw [disks]
  intro _ _ _
  unfold sectorAt
  rw [disks]

theorem spares_store [DecidableEq D] (mapped : Mapped m volume place)
    (follows : ∀ k < run, place (here + k) = (member, offset + k)) (fits : here + run ≤ volume.sectors)
    (lower : low ≤ here) (upper : here + run ≤ high) (data : Run) :
    Spares volume place low high m (m.tick.store member offset run data) := by
  refine ⟨rfl, usable_store _ _ _ _ _, ?_⟩
  intro _ bound _
  rw [sectorAt_store mapped follows fits m.tick data bound, if_neg (by omega)]
  rfl

theorem Spares.trans {m₁ : Machine D} {low' : Nat} (first : Spares volume place low high m m₁)
    (second : Spares volume place low' high m₁ m') (le : low ≤ low') : Spares volume place low high m m' where
  volumes := second.volumes.trans first.volumes
  usable := second.usable.trans first.usable
  sectors lba bound outside :=
    (second.sectors lba bound fun inside => outside ⟨by omega, inside.2⟩).trans (first.sectors lba bound outside)

section
variable (mapped : Mapped m volume place) (fits : lba + count ≤ volume.sectors) (enough : count ≤ done + fuel)
include mapped fits enough

theorem spread_read [DecidableEq D] : wp (spread io volume lba count .read fuel done buffer)
      (fun result m' => m'.volumes = m.volumes ∧ m'.disks = m.disks ∧ (io.Good → result.isSome) ∧
        ∀ run, result = some run → (∀ k < done, run k = buffer k) ∧
          ∀ k, done ≤ k → k < count → run k = sectorAt m (place (lba + k))) (fun _ _ => False) m := by
  have finished : count ≤ done → ∀ run, some buffer = some run → (∀ k < done, run k = buffer k) ∧
      ∀ k, done ≤ k → k < count → run k = sectorAt m (place (lba + k)) := by
    rintro past run ⟨⟩
    exact ⟨fun _ _ => rfl, fun k low high => by omega⟩
  induction fuel generalizing done buffer m with
  | zero =>
    unfold spread
    rw [if_neg (by omega)]
    exact ⟨rfl, rfl, fun _ => rfl, finished (by omega)⟩
  | succ fuel ih =>
    unfold spread
    split
    next past => exact ⟨rfl, rfl, fun _ => rfl, finished past⟩
    next _ =>
      rw [wp_bind, wp_get]
      obtain ⟨_, _, _, run, located, there, _, _, follows⟩ :=
        mapped.located (lba + done) (count - done) (by omega) (by omega)
      rw [located]
      dsimp only
      rw [there]
      simp only [transferRun, memberRead, wp_bind, wp_get, wp_modify]
      have last := mapped.usable (lba + done + (run - 1)) (by omega)
      rw [follows (run - 1) (by omega)] at last
      unfold Machine.usable at last
      dsimp only at last
      split
      next _ =>
        rw [wp_pure]
        have ticked := mapped_congr (show m.tick.usable = m.usable from rfl) mapped
        refine wp_of_ok (ih ticked (by omega) ?_) ?_
        · rintro past whole ⟨⟩
          exact ⟨fun _ _ => rfl, fun k low high => by omega⟩
        rintro result m' ⟨volumes, disks, good, data⟩
        refine ⟨volumes, disks, good, fun whole eq => ?_⟩
        obtain ⟨before, after⟩ := data whole eq
        constructor
        · intro k low
          rw [before k (by omega), splice, if_neg (by omega)]
        intro k low high
        by_cases here : k < done + run
        · rw [before k here, splice, if_pos ⟨low, here⟩]
          have spot := follows (k - done) (by omega)
          rw [show lba + done + (k - done) = lba + k by omega] at spot
          rw [sectorAt, spot]
        · exact after k (by omega) high
      next missed =>
        refine ⟨rfl, rfl, fun good => absurd ⟨by omega, (good _ _ _).1⟩ missed, fun run none => ?_⟩
        cases none

theorem spread_write [DecidableEq D] {data : Run} : wp (spread io volume lba count (.write data) fuel done buffer)
      (fun result m' => Spares volume place (lba + done) (lba + count) m m' ∧ (io.Good → result.isSome) ∧
        (result.isSome → ∀ k, done ≤ k → k < count → sectorAt m' (place (lba + k)) = data k))
      (fun _ _ => False) m := by
  induction fuel generalizing done buffer m with
  | zero =>
    unfold spread
    rw [if_neg (by omega)]
    exact ⟨spares_of_disks rfl rfl _ _, fun _ => rfl, fun _ k low high => by omega⟩
  | succ fuel ih =>
    unfold spread
    split
    next _ => exact ⟨spares_of_disks rfl rfl _ _, fun _ => rfl, fun _ k low high => by omega⟩
    next _ =>
      rw [wp_bind, wp_get]
      obtain ⟨_, member, offset, run, located, there, _, _, follows⟩ :=
        mapped.located (lba + done) (count - done) (by omega) (by omega)
      rw [located]
      dsimp only
      rw [there]
      have last := mapped.usable (lba + done + (run - 1)) (by omega)
      rw [follows (run - 1) (by omega)] at last
      unfold Machine.usable at last
      dsimp only at last
      have stored : ∀ left : Run, Spares volume place (lba + done) (lba + count) m
          (m.tick.store member offset run left) :=
        spares_store mapped follows (by omega) (by omega) (by omega)
      simp only [transferRun]
      rw [wp_bind, wp_bind]
      apply memberWrite_wp
      · intro _
        omega
      · intro _ _
        have mapped₁ := mapped_congr (stored fun sector => data (done + sector)).usable mapped
        rw [if_pos rfl, wp_pure]
        refine wp_of_ok (ih mapped₁ (by omega)) ?_
        rintro result m' ⟨keeps, good, written⟩
        refine ⟨(stored _).trans keeps (by omega), good, fun success k low high => ?_⟩
        by_cases here : k < done + run
        · rw [keeps.sectors (lba + k) (by omega) (by omega),
            sectorAt_store mapped follows (by omega) _ _ (by omega), if_pos (by omega)]
          congr 1
          omega
        · exact written success k (by omega) high
      · intro left _ failed
        refine ⟨stored left, fun good => ?_, fun none => by cases none⟩
        rw [(good _ _ _).2] at failed
        cases failed

end

variable {available : Nat}

section
variable (mapped : Mapped m volume place) (found : m.volume index = some volume) (level : volume.level ≠ .mirror)
include mapped found level

omit mapped in
theorem transfer_wp [DecidableEq D] (direction : Direction) {ok : Option Run → Machine D → Prop} {err : Fault → Machine D → Prop}
    (refused : ¬ Accepted volume lba count available → ok none m)
    (accepted : Accepted volume lba count available →
      wp (spread io volume lba count direction count 0 fun _ => Buffer.zero) ok err m) :
    wp (transfer io index lba count available direction) ok err m := by
  unfold transfer
  rw [wp_bind, wp_get, found]
  dsimp only
  split
  next _ =>
    apply refused
    rintro ⟨_, _, _⟩
    omega
  next _ =>
    have go := accepted ⟨by omega, by omega, by omega⟩
    cases kind : volume.level with
    | mirror => exact absurd kind level
    | linear => exact go
    | stripe => exact go

theorem read_returns [DecidableEq D] (io : Answers D) (lba count available : Nat) : wp (read io index lba count available)
      (fun result m' => m'.volumes = m.volumes ∧ m'.disks = m.disks ∧
        (io.Good → Accepted volume lba count available → result.isSome) ∧
        ∀ run, result = some run → Accepted volume lba count available ∧
          ∀ k < count, run k = sectorAt m (place (lba + k))) (fun _ _ => False) m := by
  apply transfer_wp found level
  · intro refused
    refine ⟨rfl, rfl, fun _ accepted => absurd accepted refused, fun run none => ?_⟩
    cases none
  intro accepted
  refine wp_of_ok (spread_read mapped accepted.2.2 (by omega)) ?_
  rintro result m' ⟨volumes, disks, good, data⟩
  exact ⟨volumes, disks, fun answers _ => good answers, fun run eq =>
    ⟨accepted, fun k bound => (data run eq).2 k (Nat.zero_le k) bound⟩⟩

theorem write_returns [DecidableEq D] (io : Answers D) (lba count available : Nat) (data : Run) :
    wp (write io index lba count available data)
      (fun success m' => (io.Good → Accepted volume lba count available → success = true) ∧
        (¬ Accepted volume lba count available → m' = m) ∧
        (Accepted volume lba count available → Spares volume place lba (lba + count) m m' ∧
          (success = true → ∀ k < count, sectorAt m' (place (lba + k)) = data k))) (fun _ _ => False) m := by
  unfold write
  rw [wp_bind]
  apply transfer_wp found level
  · intro refused
    exact ⟨fun _ accepted => absurd accepted refused, fun _ => rfl, fun accepted => absurd accepted refused⟩
  intro accepted
  refine wp_of_ok (spread_write mapped accepted.2.2 (by omega)) ?_
  rintro _ m' ⟨keeps, good, written⟩
  exact ⟨fun answers _ => good answers, fun refused => absurd accepted refused, fun _ =>
    ⟨keeps, fun success k bound => written success k (Nat.zero_le k) bound⟩⟩

end

structure Recalls (index : Nat) (volume : Volume D) (place : Nat → D × Nat) (used : Used D) : Prop where
  found : used.machine.volume index = some volume
  mapped : Mapped used.machine volume place
  written : ∀ lba < volume.sectors, ∀ sector, used.written lba = some sector →
    sectorAt used.machine (place lba) = sector

variable {used : Used D}

section
variable (level : volume.level ≠ .mirror) (recalls : Recalls index volume place used)
include level recalls

theorem recalls_step [DecidableEq D]
    (request : Answers D × Request) : Recalls index volume place (used.step index volume request) := by
  obtain ⟨io, request⟩ := request
  cases request with
  | read lba count available =>
    obtain ⟨_, m', run, volumes, disks, -⟩ :=
      returns_of_wp (read_returns recalls.mapped recalls.found level io lba count available)
    have kept : Spares volume place 0 0 used.machine m' := spares_of_disks volumes disks 0 0
    simp only [Used.step, run]
    refine ⟨(volume_congr volumes index).trans recalls.found, mapped_congr kept.usable recalls.mapped, ?_⟩
    intro lba bound sector written
    rw [kept.sectors lba bound (by omega)]
    exact recalls.written lba bound sector written
  | write lba count available data =>
    obtain ⟨_, m', run, -, refused, accepted⟩ :=
      returns_of_wp (write_returns recalls.mapped recalls.found level io lba count available data)
    simp only [Used.step, run]
    by_cases range : Accepted volume lba count available
    · obtain ⟨keeps, stored⟩ := accepted range
      refine ⟨(volume_congr keeps.volumes index).trans recalls.found, mapped_congr keeps.usable recalls.mapped, ?_⟩
      intro here bound sector written
      dsimp only at written ⊢
      split at written
      next inside =>
        split at written
        next done =>
          cases written
          have spot := stored (by simpa [Except.toOption] using done) (here - lba) (by omega)
          rwa [show lba + (here - lba) = here by omega] at spot
        next => cases written
      next outside =>
        rw [keeps.sectors here bound fun inside => outside ⟨range, inside⟩]
        exact recalls.written here bound sector written
    · rw [refused range]
      refine ⟨recalls.found, recalls.mapped, ?_⟩
      intro here bound sector written
      dsimp only at written ⊢
      rw [if_neg fun inside => range inside.1] at written
      exact recalls.written here bound sector written

theorem Recalls.remembers [DecidableEq D] : Remembers index volume place used := by
  refine ⟨recalls.mapped, ?_, ?_⟩
  · intro io lba count available
    obtain ⟨result, m', run, -, -, good, data⟩ :=
      returns_of_wp (read_returns recalls.mapped recalls.found level io lba count available)
    refine ⟨result, m', run, ?_, good⟩
    intro whole eq k bound sector written
    obtain ⟨accepted, sectors⟩ := data whole eq
    have fits := accepted.2.2
    rw [sectors k bound]
    exact recalls.written (lba + k) (by omega) sector written
  · intro io lba count available data
    obtain ⟨success, m', run, good, -⟩ :=
      returns_of_wp (write_returns recalls.mapped recalls.found level io lba count available data)
    exact ⟨success, m', run, good⟩

end

structure Laid (m : Machine D) (volume : Volume D) : Prop where
  member : Nonempty D
  shape : volume.level ≠ .mirror → Spread m volume
  distinct : Distinct volume

theorem Created.laid {uuid : Uuid} {level : Level}
    (created : Created m uuid level members slot volume) : Laid m volume := by
  have held : ∀ index < volume.count, ∃ member, volume.members index = some member ∧ member ∈ members := by
    intro index bound
    rw [created.count_eq] at bound
    refine ⟨members.get ⟨index, bound⟩, ?_, List.get_mem _ _⟩
    rw [created.members_eq, List.getElem?_eq_getElem bound]
    rfl
  obtain ⟨first, -⟩ := held 0 (created.count_eq ▸ created.count_pos)
  refine ⟨⟨first⟩, fun _ => ⟨?_, ?_⟩, ⟨?_⟩⟩
  · intro linear
    rw [created.linear_size (created.level_eq ▸ linear), memberStart, created.count_eq]
    apply le_of_eq
    congr 1
    apply List.ext_getElem
    · simp
    intro index bound _
    simp [memberLength, created.members_eq, List.getElem?_eq_getElem (show index < members.length by simpa using bound)]
  · intro stripe
    obtain ⟨positive, divides, size, small⟩ := created.stripe_size (created.level_eq ▸ stripe)
    refine ⟨positive, divides, created.count_eq ▸ size, ?_⟩
    intro index bound
    obtain ⟨member, there, mem⟩ := held index bound
    exact ⟨member, there, small.trans (foldl_min_le _ (List.mem_map_of_mem mem))⟩
  · exact fun member slot slot' _ _ => created.distinct

theorem sum_filterMap {β : Type} (f : α → Option β) (g : β → Nat) (xs : List α) :
    ((xs.filterMap f).map g).sum = (xs.map fun x => ((f x).map g).getD 0).sum := by
  induction xs with
  | nil => rfl
  | cons x xs ih =>
    cases value : f x with
    | none => simp [value, ih]
    | some y => simp [value, ih]

theorem Assembled.laid {first : D × Header} {rest : List (D × Header)}
    (made : Assembled m io members first rest slot volume) : Laid m volume := by
  refine ⟨⟨first.1⟩, fun level => ⟨?_, ?_⟩, ⟨?_⟩⟩
  · intro linear
    rw [made.linear_size (made.level_eq ▸ linear), sum_filterMap, memberStart, made.count_eq]
    apply le_of_eq
    congr 1
    apply List.map_congr_left
    intro index mem
    rw [memberLength, made.members_eq, if_pos (List.mem_range.mp mem), Option.map_map]
    rfl
  · intro stripe
    obtain ⟨positive, divides, size⟩ := made.stripe_size (made.level_eq ▸ stripe)
    refine ⟨positive, divides, size, ?_⟩
    intro index bound
    rw [made.count_eq] at bound
    have working := made.all_present (made.level_eq ▸ level) index bound
    rw [made.failed_eq, decide_eq_true bound, Bool.true_and, Found.failed, fill_kept] at working
    rw [made.members_eq, if_pos bound]
    cases held : kept first rest index with
    | none =>
      rw [held] at working
      cases working
    | some entry => exact ⟨entry.1, rfl, (made.size_le index entry bound held).2 (made.level_eq ▸ stripe)⟩
  · exact fun member slot slot' _ _ => made.distinct

theorem laid_of_put (bound : slot < maxVolumes) {volume' : Volume D} (laid : Laid m volume')
    (same : m'.volumes = (m.put slot (some volume')).volumes) (usable : m'.usable = m.usable)
    (found : m'.volume slot = some volume) : Laid m' volume := by
  rw [volume_congr same, volume_put m bound, if_pos rfl] at found
  cases found
  refine ⟨laid.member, fun level => ⟨?_, ?_⟩, laid.distinct⟩
  · unfold memberStart
    rw [memberLength_congr usable]
    exact (laid.shape level).linear
  · rw [usable]
    exact (laid.shape level).stripe

theorem laid_of_made [DecidableEq D] {machine : Machine D} (made : Made machine index) (found : machine.volume index = some volume) :
    Laid machine volume := by
  have split : ∀ {x : Step D Nat} {before : Machine D}, x before = (.ok index, machine) →
      wp x (fun index machine => machine.volume index = some volume → Laid machine volume)
        (fun _ _ => True) before → Laid machine volume := by
    intro x before run h
    unfold wp at h
    rw [run] at h
    exact h found
  cases made with
  | create io _ _ _ _ members before made =>
    apply split made
    apply create_wp
    · exact fun _ => trivial
    intro slot volume' created
    have kept := preserves_persist io (P := fun m' : Machine D =>
        m'.volumes = (before.put slot (some volume')).volumes ∧ m'.usable = before.usable)
      (fun m m' volumes usable h => ⟨volumes.trans h.1, usable.trans h.2⟩) slot
      (before.put slot (some volume')) ⟨rfl, rfl⟩
    refine wp_mono kept ?_ fun _ _ _ => trivial
    rintro _ m' ⟨volumes, usable⟩ found
    exact laid_of_put created.bound created.laid volumes usable found
  | assembleFrom io members before made =>
    apply split made
    apply assembleFrom_wp
    · exact fun _ _ _ _ => trivial
    intro _ _ slot volume' m' assembled volumes disks found
    have same : (m'.put slot (some volume')).volumes = (before.put slot (some volume')).volumes := by
      unfold Machine.put
      rw [volumes]
    have usable : (m'.put slot (some volume')).usable = before.usable := by
      unfold Machine.usable Machine.put
      rw [disks]
    exact laid_of_put assembled.bound assembled.laid same usable found

theorem spread_volumes_remember [DecidableEq D] (machine : Machine D) (index : Nat) (volume : Volume D)
    (made : Made machine index) (found : machine.volume index = some volume) (level : volume.level ≠ .mirror) :
    ∃ place, ∀ requests : List (Answers D × Request),
      Run.Throughout (Used.step index volume) (Remembers index volume place) ⟨machine, fun _ => none⟩ requests := by
  have laid := laid_of_made made found
  obtain ⟨default⟩ := laid.member
  refine ⟨placeOf default machine volume, fun requests => ?_⟩
  have start : Recalls index volume (placeOf default machine volume) ⟨machine, fun _ => none⟩ := by
    refine ⟨found, mapped_placeOf default (laid.shape level) level laid.distinct, ?_⟩
    intro _ _ _ none
    cases none
  exact Run.throughout_of_inv (fun used request recalls => recalls_step level recalls request)
    (fun used recalls => recalls.remembers level) requests start

def willing : Answers Bool := ⟨fun _ _ _ => true, fun _ _ _ => .done⟩

def striped : Except Fault Nat × Machine Bool :=
  create willing (fun _ => false) 7 .stripe 4 [false, true] (Machine.initial fun _ => ⟨9, fun _ => Buffer.zero⟩)

theorem striped_remembers :
    ∃ volume, striped.2.volume 0 = some volume ∧ volume.level = .stripe ∧ volume.sectors = 16 ∧
      ∃ place, ∀ requests, Run.Throughout (Used.step 0 volume) (Remembers 0 volume place)
        ⟨striped.2, fun _ => none⟩ requests := by
  have made : Made striped.2 0 := .create willing (fun _ => false) 7 .stripe 4 [false, true] _ (Prod.ext rfl rfl)
  refine ⟨_, rfl, rfl, rfl, ?_⟩
  exact spread_volumes_remember striped.2 0 _ made rfl (by simp)

end AerOS.Proof.Raid
