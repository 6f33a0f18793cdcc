import AerOS.Proof.Block.Transfers

namespace AerOS.Proof.Block
open AerOS.Block Lib Lib.Action Function List
open AerOS.Raid (Volume Machine Run)

variable {σ σ' : State} {env : Env} {disk : Disk} {index lba count : Nat} {volume : Volume Controller} {data : Run}
  {R : Nat → Nat → Controller → Prop}

def Whole (R : Nat → Nat → Controller → Prop) (σ : State) : Prop :=
  Inv Quiet σ ∧ ∀ index slot member, σ.machine.Fills index slot member ↔ R index slot member

theorem whole_stable : Stable disk (Whole R) where
  sound whole := whole.1.sound
  truthful := by
    intro σ number run whole held
    cases disk with
    | controller member => exact whole.1.disks member number run held
    | volume index => exact fun k bound => whole.1.volumes index number run held k bound fun never => never
  recached := by
    rintro σ cache ⟨inv, fills⟩ sound copies
    have true : ∀ disk' number run, Held cache disk' number run → TrueCopy σ disk' number run := by
      intro disk' number run held
      rcases copies disk' number run held with before | ⟨rfl, copy⟩
      · cases disk' with
        | controller member => exact inv.disks member number run before
        | volume index => exact fun k bound => inv.volumes index number run before k bound fun never => never
      · exact copy
    exact ⟨⟨sound, fun member number run held => true _ _ _ held,
      fun index number run held k bound _ => true _ _ _ held k bound, inv.tabled, inv.equal⟩, fills⟩
  noted := by
    rintro σ _ _ ⟨inv, fills⟩
    exact ⟨⟨inv.sound, inv.disks, inv.volumes, inv.tabled, inv.equal⟩, fills⟩

theorem volumeRead_true (inv : Inv Quiet σ) (index lba count : Nat) :
    Ensures (volumeRead env index lba count) σ fun result σ' =>
      Steady Quiet index (fun _ => False) σ σ' ∧ ∀ run, result = some run → ∀ k < count,
        run k = σ'.sector (.volume index) (lba + k) := by
  unfold volumeRead
  simp only [ensures_bind, ensures_get]
  cases found : σ.machine.volume index with
  | none => exact ⟨steady_refl inv, fun run none => by cases none⟩
  | some volume =>
    apply ensures_ite
    · intro _
      exact ⟨steady_refl inv, fun run none => by cases none⟩
    intro _
    have inside : lba + count ≤ volume.sectors := by omega
    apply ensures_ite
    · intro level
      exact mirrorRead_true lba count _ inv found ⟨rfl, rfl, rfl, rfl⟩ level (fun _ => mem_range.mp) inside
    intro level
    apply ensures_mono (spreadRead_true count 0 _ inv found level inside)
    rintro result σ' ⟨steady, data⟩
    exact ⟨steady, fun run some k bound => (data run some).2 k (Nat.zero_le k) bound⟩

theorem devices_read : ReadsTrue (devices env) disk (Whole R) := by
  rintro σ lba count ⟨inv, fills⟩
  cases disk with
  | controller _ =>
    have start : Through Quiet (fun _ _ => False) σ σ := ⟨inv, kept_refl σ⟩
    apply ensures_mono (drivers_read σ lba count start)
    rintro result σ' ⟨⟨⟨inv', kept⟩, same, data⟩, cached⟩
    exact ⟨⟨⟨inv', fun j slot other => (fills_kept kept j slot other).trans (fills j slot other)⟩, same, data⟩, cached⟩
  | volume index =>
    apply ensures_mono (volumeRead_true inv index lba count)
    rintro result σ' ⟨steady, data⟩
    refine ⟨⟨⟨steady.inv, fun j slot other => (steady.fills j slot other).trans (fills j slot other)⟩, ?_, data⟩,
      steady.forgets index⟩
    funext sector
    exact steady.elsewhere sector fun never => never

theorem inv_moving (inv : Inv Quiet σ) : Inv (Moving index lba count) σ where
  sound := inv.sound
  disks := inv.disks
  volumes j number run held k bound _ := inv.volumes j number run held k bound fun never => never
  tabled := inv.tabled
  equal j volume found level slot member slot' member' serves serves' sector bound _ :=
    inv.equal j volume found level slot member slot' member' serves serves' sector bound fun never => never

theorem written_moving (inv : Inv (Moving index lba count) σ)
    (fills : ∀ j slot member, σ.machine.Fills j slot member ↔ R j slot member)
    (equal : ∀ volume, σ.machine.volume index = some volume → volume.level = .mirror →
      ∀ slot member slot' member', volume.Serves slot member → volume.Serves slot' member' →
      ∀ sector < volume.sectors, lba ≤ sector → sector < lba + count →
        (σ.machine.disks member).data sector = (σ.machine.disks member').data sector) :
    Written (Whole R) (.volume index) lba count σ := by
  refine ⟨inv.sound, ?_, ?_⟩
  · intro number run held k bound outside
    exact inv.volumes index number run held k bound fun moving => outside moving.2
  intro _ sound copies
  refine ⟨⟨sound, ?_, ?_, inv.tabled, ?_⟩, fills⟩
  · intro member number run held
    rcases copies _ _ _ held with ⟨-, before⟩ | ⟨same, -⟩
    · exact inv.disks member number run before
    · cases same
  · intro j number run held k bound _
    rcases copies _ _ _ held with ⟨other, before⟩ | ⟨same, copy⟩
    · exact inv.volumes j number run before k bound fun moving => other (congrArg Disk.volume moving.1)
    cases same
    exact copy k bound
  intro j volume found level slot member slot' member' serves serves' sector bound _
  by_cases moving : Moving index lba count j sector
  · obtain ⟨rfl, low, high⟩ := moving
    exact equal volume found level slot member slot' member' serves serves' sector bound low high
  · exact inv.equal j volume found level slot member slot' member' serves serves' sector bound moving

theorem volumeWrite_true (whole : Whole R σ) (index lba count : Nat) (data : Run) :
    Ensures (volumeWrite env index lba count data) σ fun ok σ' =>
      Written (Whole R) (.volume index) lba count σ' ∧ Landed (.volume index) lba count data σ ok σ' := by
  obtain ⟨inv, fills⟩ := whole
  have moving : Inv (Moving index lba count) σ := inv_moving inv
  have refused : Written (Whole R) (.volume index) lba count σ ∧ Landed (.volume index) lba count data σ false σ := by
    refine ⟨written_moving moving fills ?_, fun _ _ => rfl, fun fine => by cases fine⟩
    intro volume found level slot member slot' member' serves serves' sector bound _ _
    exact inv.equal index volume found level slot member slot' member' serves serves' sector bound fun never => never
  unfold volumeWrite
  simp only [ensures_bind, ensures_get]
  cases found : σ.machine.volume index with
  | none => exact refused
  | some volume =>
    apply ensures_ite
    · intro _
      exact refused
    intro _
    have inside : lba + count ≤ volume.sectors := by omega
    apply ensures_ite
    · intro level
      have start : Copied σ volume lba count data (range volume.count) false := by
        refine ⟨fun slot member serves notMem => ?_, fun none => by cases none⟩
        exact absurd (mem_range.mpr serves.bound) notMem
      apply ensures_mono (mirrorWrite_true _ false moving found ⟨rfl, rfl, rfl, rfl⟩ level
        (fun slot => mem_range.mp) nodup_range inside start)
      rintro ok σ' ⟨steady, volume', found', same, copied⟩
      refine ⟨written_moving steady.inv (fun j slot other => (steady.fills j slot other).trans (fills j slot other)) ?_,
        ?_, ?_⟩
      · intro volume'' found'' _ slot member slot' member' serves serves' sector _ low high
        cases found'.symm.trans found''
        exact copied_equal copied serves serves' low high
      · intro sector away
        exact steady.elsewhere sector fun moved => away moved.2
      intro fine k bound
      have level' : volume'.level = .mirror := same.level.trans level
      obtain ⟨slot, _, serves, -, -⟩ := copied.wrote fine
      obtain ⟨member, serving⟩ := servingMember_some (steady.inv.tabled.shaped index volume' found') level'
        serves.bound serves.working
      obtain ⟨slot', serves'⟩ := serves_of_servingMember serving
      have below : lba + k < volume'.sectors := by
        rw [same.sectors]
        omega
      rw [sector_home found' ((home_mirror level').mpr ⟨below, serving, rfl⟩)]
      exact copied_has copied fine serves' k bound
    · intro level
      apply ensures_then (spreadWrite_true count 0 _ moving found level inside)
      rintro _ σ' ⟨steady, found', there⟩
      refine ⟨written_moving steady.inv (fun j slot other => (steady.fills j slot other).trans (fills j slot other)) ?_,
        ?_, ?_⟩
      · intro volume'' found'' mirror
        cases found'.symm.trans found''
        exact absurd mirror level
      · intro sector away
        exact steady.elsewhere sector fun moved => away ⟨by have := moved.2.1; omega, by have := moved.2.2; omega⟩
      · intro fine k bound
        exact there fine k (Nat.zero_le k) bound

theorem devices_write (free : ∀ member, disk = .controller member → ∀ index slot, ¬ R index slot member) :
    WritesTrue (devices env) disk (Whole R) fun _ => True := by
  rintro σ lba count data ⟨inv, fills⟩ -
  cases disk with
  | controller member =>
    have start : Through Quiet (Named member lba count) σ σ := ⟨inv, kept_refl σ⟩
    have covered : ∀ offset, Named member lba count member offset → ∀ index sector,
        Carries σ.machine index sector member offset → Quiet index sector := by
      rintro offset - index sector ⟨volume, found, -, slot, _, there, -⟩
      have few := (inv.tabled.shaped index volume found).few
      exact free member rfl index slot ((fills index slot member).mp ⟨volume, found, by omega, there⟩)
    apply ensures_mono (drivers_write covered σ lba count data start fun sector low high => ⟨rfl, low, high⟩)
    rintro ok σ' ⟨written, landed⟩
    refine ⟨⟨written.sound, written.outside, fun cache sound copies => ?_⟩, landed⟩
    obtain ⟨inv', kept⟩ := written.mended cache sound copies
    exact ⟨inv', fun j slot other => (fills_kept kept j slot other).trans (fills j slot other)⟩
  | volume index => exact volumeWrite_true ⟨inv, fills⟩ index lba count data

open AerOS.Raid (Run)
variable {group group' : Group}

def Frees (R : Nat → Nat → Controller → Prop) (disk : Disk) : Prop :=
  ∀ member, disk = .controller member → ∀ index slot, ¬ R index slot member

structure Kin (io io' : Io) : Prop where
  disk : io'.disk = io.disk
  write : isWrite io' = isWrite io

theorem kin_refl (io : Io) : Kin io io := ⟨rfl, rfl⟩

theorem kin_trans {io io' io'' : Io} (first : Kin io io') (second : Kin io' io'') : Kin io io'' :=
  ⟨second.disk.trans first.disk, second.write.trans first.write⟩

theorem kin_fill (io : Io) (run : Run) : Kin io (io.fill run) := by
  unfold Io.fill
  cases eq : io.data with
  | read buffer available => exact ⟨rfl, by simp [isWrite, eq]⟩
  | write buffer available => exact kin_refl io

theorem kin_finish (io : Io) (ok : Bool) : Kin io (io.finish ok) := ⟨rfl, rfl⟩

theorem kin_done (io : Io) (run : Run) (ok : Bool) : Kin io ((io.fill run).finish ok) :=
  kin_trans (kin_fill io run) (kin_finish _ ok)

def Kindred (group group' : Group) : Prop := ∀ index, Kin (group index) (group' index)

theorem kindred_refl (group : Group) : Kindred group group := fun index => kin_refl (group index)

theorem kindred_trans {group'' : Group} (first : Kindred group group') (second : Kindred group' group'') :
    Kindred group group'' := fun index => kin_trans (first index) (second index)

theorem kindred_update {index : Nat} {io : Io} (kin : Kin (group index) io) :
    Kindred group (update group index io) := by
  intro other
  by_cases same : other = index
  · subst same
    rw [update_self]
    exact kin
  · rw [update_of_ne same]
    exact kin_refl _

def Harmless (R : Nat → Nat → Controller → Prop) (group : Group) : Prop :=
  ∀ index, isWrite (group index) = true → Frees R (group index).disk

theorem harmless_kindred (harmless : Harmless R group) (kindred : Kindred group group') :
    Harmless R group' := by
  intro index write
  rw [(kindred index).disk]
  exact harmless index ((kindred index).write ▸ write)

theorem shrunk_serveSectors {cache : Cache} (sound : Sound cache) (disk : Disk) (lba : Nat) (indices : List Nat)
    (buffer : Run) : Shrunk cache (serveSectors disk lba indices buffer cache).2.2 := by
  induction indices generalizing cache buffer with
  | nil => exact shrunk_refl sound
  | cons index _ ih =>
    unfold serveSectors
    dsimp only
    cases found : cache.find disk ((lba + index) / maxRun) with
    | none => exact shrunk_refl sound
    | some _ =>
      have touched := shrunk_touch sound found
      exact shrunk_trans touched (ih touched.sound _)

theorem serveCached_true (index : Nat) (group : Group) (whole : Whole R σ) :
    Ensures (serveCached index group) σ fun result σ' => Whole R σ' ∧ Kindred group result.2 := by
  apply ensures_ite
  · intro _
    have shrunk := shrunk_serveSectors whole.1.sound (group index).disk (group index).lba
      (range (group index).sectors) (group index).data.buffer
    exact ⟨stable_shrunk (@whole_stable (group index).disk R) whole shrunk, kindred_update (kin_done _ _ _)⟩
  · intro _
    exact ⟨whole, kindred_refl group⟩

theorem cacheFill_true (lba count : Nat) (data : Run) (whole : Whole R σ)
    (copy : ∀ index < count, data index = σ.sector disk (lba + index)) :
    Ensures (cacheFill env disk lba count data) σ fun _ σ' => Whole R σ' := by
  have asked := fun turn => @Stable.noted disk (Whole R) whole_stable σ σ.heads turn whole
  apply ensures_ite
  · rintro ⟨page, aligned⟩
    apply ensures_ite
    · intro _
      apply ensures_ite
      · rintro ⟨-, missing⟩
        apply ensures_ite
        · intro _
          refine stable_insert (@whole_stable disk R) (asked _) ?_ ?_
          · intro _
            exact find_none whole.1.sound (Option.isNone_iff_eq_none.mp missing)
          intro k bound
          rw [Nat.div_mul_cancel (Nat.dvd_of_mod_eq_zero aligned)]
          exact copy k (page ▸ bound)
        · intro _
          exact asked _
      · intro _
        exact asked _
    · intro _
      exact asked _
  · intro _
    exact whole

theorem runRead_true (io : Io) (throughCache : Bool) (whole : Whole R σ) :
    Ensures (runRead env (devices env) io throughCache) σ fun _ σ' => Whole R σ' := by
  apply ensures_ite
  · intro _
    apply ensures_mono (read_true whole_stable devices_read io.lba io.sectors whole)
    intro _ σ' read
    exact read.inv
  intro _
  apply ensures_then (readRun_true whole_stable devices_read io.lba io.sectors whole)
  rintro (_ | run) σ' ⟨read, -⟩
  · exact read.inv
  apply ensures_then (cacheFill_true io.lba io.sectors run read.inv (read.data run rfl))
  intro _ _ whole'
  exact whole'

theorem writeRun_whole (free : Frees R disk) (lba count : Nat) (data : Run) (whole : Whole R σ) :
    Ensures (writeRun (devices env) disk lba count data) σ fun _ σ' => Whole R σ' := by
  apply ensures_mono (writeRun_true whole_stable (devices_write free) lba count data (fun _ _ _ => trivial) whole)
  rintro ok σ' ⟨whole', -⟩
  exact whole'

theorem runIo_true (io : Io) (throughCache : Bool) (free : isWrite io = true → Frees R io.disk) (whole : Whole R σ) :
    Ensures (runIo env (devices env) io throughCache) σ fun io' σ' => Whole R σ' ∧ Kin io io' := by
  apply ensures_ite
  · intro _
    cases data : io.data with
    | write buffer available =>
      apply ensures_then (writeRun_whole (free (by simp [isWrite, data])) io.lba io.sectors buffer whole)
      intro ok σ' whole'
      exact ⟨whole', kin_finish io ok⟩
    | read buffer available =>
      apply ensures_then (runRead_true io throughCache whole)
      rintro (_ | run) σ' whole'
      · exact ⟨whole', kin_finish io false⟩
      · exact ⟨whole', kin_done io run true⟩
  · intro _
    exact ⟨whole, kin_finish io false⟩

def Runs (R : Nat → Nat → Controller → Prop) (group : Group) (x : M Group) (σ : State) : Prop :=
  Ensures x σ fun group' σ' => Whole R σ' ∧ Kindred group group'

theorem runs_after {x : M Group} (kindred : Kindred group group') (runs : Runs R group' x σ) : Runs R group x σ := by
  apply ensures_mono runs
  rintro _ σ' ⟨whole, kindred'⟩
  exact ⟨whole, kindred_trans kindred kindred'⟩

section
variable (harmless : Harmless R group) (whole : Whole R σ)
include harmless whole

theorem runSingle_true (index : Nat) (throughCache : Bool) :
    Runs R group (runSingle env (devices env) index throughCache group) σ := by
  apply ensures_then (runIo_true (group index) throughCache (harmless index) whole)
  rintro io σ' ⟨whole', kin⟩
  exact ⟨whole', kindred_update kin⟩

theorem runEach_true (throughCache : Bool) (indices : List Nat) :
    Runs R group (runEach env (devices env) throughCache indices group) σ := by
  induction indices generalizing group σ with
  | nil => exact ⟨whole, kindred_refl group⟩
  | cons index _ ih =>
    apply ensures_then (runSingle_true harmless whole index throughCache)
    rintro _ σ₁ ⟨whole₁, kindred₁⟩
    exact runs_after kindred₁ (ih (harmless_kindred harmless kindred₁) whole₁)

omit harmless whole in
theorem kindred_deliver (ok : Bool) (staging : Run) (indices : List Nat) (offset : Nat) (group : Group) :
    Kindred group (deliver ok staging indices offset group) := by
  induction indices generalizing offset group with
  | nil => exact kindred_refl group
  | cons _ _ ih =>
    apply kindred_trans _ (ih _ _)
    apply kindred_update
    cases ok with
    | true => exact kin_done _ _ _
    | false => exact kin_finish _ _

theorem runMerged_true (first : Nat) (more : List Nat) (length : Nat) :
    Runs R group (runMerged env (devices env) group first more length) σ := by
  unfold runMerged
  apply ensures_ite
  · intro _
    exact runEach_true harmless whole false (first :: more)
  intro _
  apply ensures_ite
  · intro write
    apply ensures_then (writeRun_whole (harmless first write) _ length _ whole)
    intro ok σ' whole'
    exact ⟨whole', kindred_deliver _ _ _ _ _⟩
  intro _
  apply ensures_then (readRun_true whole_stable devices_read _ length whole)
  rintro (_ | staging) σ' ⟨read, -⟩
  · exact ⟨read.inv, kindred_deliver _ _ _ _ _⟩
  apply ensures_then (cacheFill_true _ length staging read.inv (read.data staging rfl))
  intro _ _ whole''
  exact ⟨whole'', kindred_deliver _ _ _ _ _⟩

theorem dispatch_true (ordered : Bool) (turns : Nat) (order : List Nat) :
    Runs R group (dispatch env (devices env) ordered turns order group) σ := by
  induction turns generalizing order group σ with
  | zero => exact ⟨whole, kindred_refl group⟩
  | succ turns ih =>
    cases order with
    | nil => exact ⟨whole, kindred_refl group⟩
    | cons first _ =>
      unfold dispatch
      apply ensures_ite
      · intro _
        apply ensures_then (runSingle_true harmless whole first (!ordered))
        rintro group₁ σ₁ ⟨whole₁, kindred₁⟩
        exact runs_after kindred₁ (ih (harmless_kindred harmless kindred₁) whole₁ _)
      intro _
      apply ensures_then (runMerged_true harmless whole first _ _)
      rintro group₁ σ₁ ⟨whole₁, kindred₁⟩
      exact runs_after kindred₁ (ih (harmless_kindred harmless kindred₁) whole₁ _)

end

theorem leaveServed_true (ordered : Bool) (indices : List Nat) (whole : Whole R σ) :
    Ensures (leaveServed ordered indices group) σ fun result σ' => Whole R σ' ∧ Kindred group result.2 := by
  induction indices generalizing group σ with
  | nil => exact ⟨whole, kindred_refl group⟩
  | cons index _ ih =>
    apply ensures_ite
    · intro _
      apply ensures_then (serveCached_true index group whole)
      rintro _ σ₁ ⟨whole₁, kindred₁⟩
      apply ensures_then (ih whole₁)
      rintro pending σ₂ ⟨whole₂, kindred₂⟩
      exact ⟨whole₂, kindred_trans kindred₁ kindred₂⟩
    · intro _
      apply ensures_then (ih whole)
      rintro pending σ₁ ⟨whole₁, kindred₁⟩
      exact ⟨whole₁, kindred₁⟩

theorem runGroup_true (ios : List Io) (default : Io) (schedule : Schedule)
    (harmless : Harmless R fun index => ios.getD index default) (whole : Whole R σ) :
    Ensures (runGroup env (devices env) ios default schedule) σ fun _ σ' => Whole R σ' := by
  unfold runGroup
  apply ensures_then (leaveServed_true _ _ whole)
  rintro _ σ₁ ⟨whole₁, kindred₁⟩
  simp only [ensures_bind, ensures_get]
  apply ensures_mono (dispatch_true (harmless_kindred harmless kindred₁) whole₁ _ _ _)
  rintro _ σ₂ ⟨whole₂, -⟩
  exact whole₂

def Safe (R : Nat → Nat → Controller → Prop) (batch : List Io) : Prop :=
  ∀ io ∈ batch, isWrite io = true → Frees R io.disk

theorem harmless_of_safe {ios : List Io} {default : Io} (safe : Safe R ios) (mem : default ∈ ios) :
    Harmless R fun index => ios.getD index default := by
  intro index write
  have there : ios.getD index default ∈ ios := by
    rw [getD_eq_getElem?_getD]
    cases eq : ios[index]? with
    | none => exact mem
    | some _ => exact mem_of_getElem? eq
  exact safe _ there write

theorem submitFrom_true (schedule : Schedule) (turns : Nat) (batch : List Io) (safe : Safe R batch)
    (whole : Whole R σ) :
    Ensures (submitFrom env (devices env) schedule turns batch) σ fun _ σ' => Whole R σ' := by
  induction turns generalizing batch σ with
  | zero => exact whole
  | succ turns ih =>
    cases batch with
    | nil => exact whole
    | cons io rest =>
      unfold submitFrom
      have first : Safe R (io :: rest.takeWhile fun io => !io.barrier) := by
        intro io' mem
        rcases mem_cons.mp mem with rfl | later
        · exact safe _ mem_cons_self
        · exact safe io' (mem_cons_of_mem _ (takeWhile_sublist _ |>.subset later))
      have after : Safe R (rest.dropWhile fun io => !io.barrier) := fun io' mem =>
        safe io' (mem_cons_of_mem _ (dropWhile_sublist _ |>.subset mem))
      apply ensures_then (runGroup_true _ io schedule (harmless_of_safe first mem_cons_self) whole)
      intro _ σ₁ whole₁
      apply ensures_then (ih _ after whole₁)
      intro _ σ₂ whole₂
      exact whole₂

theorem submit_true (batch : List Io) (schedule : Schedule) (safe : Safe R batch) (whole : Whole R σ) :
    Ensures (submit env (devices env) batch schedule) σ fun _ σ' => Whole R σ' := by
  unfold submit
  apply ensures_then (submitFrom_true schedule _ _ (fun io mem => safe io (mem_of_mem_take mem)) whole)
  intro _ σ' whole'
  exact whole'

theorem scatterFrom_true (disk : Disk) (turns : Nat) (pieces : List (Nat × Nat)) (offset available : Nat) (out : Run)
    (whole : Whole R σ) :
    Ensures (scatterFrom env (devices env) disk turns pieces offset available out) σ fun _ σ' => Whole R σ' := by
  induction turns generalizing pieces offset available out σ with
  | zero => exact whole
  | succ turns ih =>
    apply ensures_ite
    · intro _
      exact whole
    intro _
    apply ensures_ite
    · intro _
      exact whole
    intro _
    apply ensures_then (submit_true _ .elevator ?_ whole)
    · intro _ σ₁ whole₁
      apply ensures_ite
      · intro _
        exact whole₁
      intro _
      exact ih _ _ _ _ whole₁
    · intro io mem write
      obtain ⟨_, -, rfl⟩ := mem_map.mp mem
      cases write

theorem ensures_ok {α : Type} {x : M α} {a : α} {post : α → State → Prop} (ensures : Ensures x σ post)
    (run : x σ = (.ok a, σ')) : post a σ' := by
  unfold Ensures wp at ensures
  rwa [run] at ensures

theorem whole_fresh (fresh : Fresh σ) : Whole σ.machine.Fills σ := by
  have nothing : ∀ {disk number run}, ¬ Held σ.cache disk number run := by
    intro disk number run
    rw [fresh.cold]
    rintro ⟨_, _, data, -, -⟩
    cases data
  refine ⟨⟨?_, ?_, ?_, ⟨fresh.exclusive, fresh.shaped⟩, ?_⟩, fun _ _ _ => Iff.rfl⟩
  · rw [fresh.cold]
    exact sound_empty
  · intro disk number run held
    exact absurd held nothing
  · intro index number run held
    exact absurd held nothing
  · intro index volume found level slot member slot' member' serves serves' lba bound _
    exact fresh.equal index volume found level slot member slot' member' serves serves' lba bound

theorem action_whole (call : Call) (whole : Whole R σ) (spares : Spares (some σ) call) :
    Ensures (call.action env) σ fun _ σ' => Whole R σ' := by
  have frees : ∀ disk, disk ∈ call.writes → Frees R disk := fun disk writes member controller index slot fills =>
    spares σ rfl disk writes member controller index slot ((whole.2 index slot member).mpr fills)
  cases call with
  | read disk lba count =>
    simp only [Call.action, ensures_bind]
    apply ensures_mono (read_true whole_stable devices_read lba count whole)
    intro result σ' read
    exact read.inv
  | write disk lba count data =>
    simp only [Call.action, ensures_bind]
    apply ensures_mono (write_true whole_stable (devices_write (frees disk (by simp [Call.writes]))) lba count data
      (fun _ _ _ => trivial) whole)
    rintro ok σ' ⟨whole', -⟩
    exact whole'
  | submit batch schedule =>
    simp only [Call.action, ensures_bind]
    have safe : Safe R batch := by
      intro io mem write
      exact frees io.disk (mem_map.mpr ⟨io, mem_filter.mpr ⟨mem, write⟩, rfl⟩)
    apply ensures_mono (submit_true batch schedule safe whole)
    intro result σ' whole'
    exact whole'
  | readScatter disk _ available =>
    simp only [Call.action, ensures_bind]
    apply ensures_mono (scatterFrom_true disk _ _ 0 available _ whole)
    intro result σ' whole'
    exact whole'
  | reclaim target =>
    have shrunk := shrunk_reclaimFrom target σ.cache.resident 0 whole.1.sound
    exact stable_shrunk (@whole_stable (.controller .nvme) R) whole shrunk
  | invalidateDisk disk =>
    exact stable_shrunk (@whole_stable disk R) whole (shrunk_invalidateDisk whole.1.sound disk)

theorem step_whole {s : Option State} {call : Call} (whole : ∀ σ, s = some σ → Whole R σ)
    (spares : Spares s call) : ∀ σ', step env s call = some σ' → Whole R σ' := by
  intro σ' next
  cases s with
  | none => cases next
  | some σ =>
    have ensures := @action_whole σ env R call (whole σ rfl) spares
    unfold step at next
    cases run : call.action env σ with
    | mk result after =>
      simp only [run] at next
      cases result with
      | error _ => cases next
      | ok _ =>
        obtain rfl : after = σ' := Option.some.inj next
        have after := ensures_ok ensures run
        exact after

theorem transparent_whole {call : Call} (whole : Whole R σ) : Transparent env (some σ) call := by
  rintro s same disk lba count rfl run s' read env' first length direct _ _ _ again index bound
  cases same
  have through := @read_true env (devices env) disk (Whole R) σ whole_stable devices_read lba count whole
  have past : Ensures (Call.action env (.read disk lba count)) σ fun reply σ' => ∀ run, reply = .sectors (some run) →
      Whole R σ' ∧ ∀ index < count, run index = σ'.sector disk (lba + index) := by
    simp only [Call.action, ensures_bind]
    apply ensures_mono through
    intro _ σ' read run eq
    cases eq
    exact ⟨read.inv, read.data run rfl⟩
  obtain ⟨whole', data⟩ := ensures_ok past read run rfl
  have ensures := @readRun_true (devices env') disk (Whole R) s' whole_stable devices_read first length whole'
  obtain ⟨⟨-, same, found⟩, -⟩ := ensures_ok ensures again
  rw [found direct rfl index bound, same, data _ (by omega)]
  congr 1
  omega

/-- In a run that starts with an empty cache and with equal copies in every mirror, and that writes to no
member of a volume, every successful read gives the sectors a direct read gives, and the cache keeps
its books. -/
theorem transparent_of_spares (env : Env) (σ : State) (calls : List Call) (fresh : Fresh σ)
    (spared : Run.Along (step env) Spares (some σ) calls) :
    Run.Along (step env) (Transparent env) (some σ) calls ∧
      Run.Throughout (step env) (fun s => ∀ σ', s = some σ' → Accounted σ'.cache) (some σ) calls := by
  let inv : Option State → Prop := fun s => ∀ σ', s = some σ' → Whole σ.machine.Fills σ'
  have start : inv (some σ) := by
    rintro σ' same
    cases same
    exact whole_fresh fresh
  have keeps : ∀ s call, inv s → Spares s call → inv (step env s call) := fun s call whole spares =>
    step_whole whole spares
  constructor
  · apply Run.along_of_along keeps _ start spared
    intro s call whole _
    cases s with
    | none =>
      intro s none
      cases none
    | some σ' => exact transparent_whole (whole σ' rfl)
  · apply Run.throughout_of_along keeps _ start spared
    intro s whole σ' same
    exact sound_accounted (whole σ' same).1.sound

def obliging : Env where
  io := ⟨fun _ _ _ => true, fun _ _ _ => .done⟩
  calm := fun _ => true
  memory := fun _ => true
  sorted := fun _ order => order

def onNvme : Machine Controller where
  volumes := fun index =>
    if index = 0 then
      some
        { level := .linear
          chunk := 8
          members := fun slot => if slot = 0 then some .nvme else none
          failed := fun _ => false
          count := 1
          perMember := 0
          sectors := 16
          uuid := 0
          events := 1 }
    else none
  disks := fun _ => ⟨17, fun _ => Buffer.zero⟩
  transfers := 0

def started : State := ⟨onNvme, Cache.empty, fun _ => 0, 0⟩

def marked : Raid.Sector := Buffer.zero.put 0 [1]

theorem volume_onNvme {index : Nat} {volume : Volume Controller} (found : onNvme.volume index = some volume) :
    index = 0 ∧ some volume = onNvme.volumes 0 := by
  unfold Machine.volume at found
  by_cases bound : index < Raid.maxVolumes
  · by_cases zero : index = 0
    · subst zero
      exact ⟨rfl, found.symm⟩
    · simp [onNvme, zero] at found
  · rw [if_neg bound] at found
    cases found

theorem fresh_started : Fresh started := by
  refine ⟨rfl, ?_, ?_, ?_⟩
  · rintro _ index slot _ slot' ⟨volume, found, -, there⟩ ⟨_, found', -, there'⟩
    obtain ⟨rfl, same⟩ := volume_onNvme found
    obtain ⟨rfl, same'⟩ := volume_onNvme found'
    cases same
    cases same'
    have zero : slot = 0 := by
      by_contra other
      simp [other] at there
    have zero' : slot' = 0 := by
      by_contra other
      simp [other] at there'
    exact ⟨rfl, zero.trans zero'.symm⟩
  · intro index volume found
    obtain ⟨-, same⟩ := volume_onNvme found
    cases same
    refine ⟨by decide, fun _ => by decide, fun stripe => ?_, fun mirror => ?_⟩
    · cases stripe
    · cases mirror
  · intro index volume found mirror
    obtain ⟨-, same⟩ := volume_onNvme found
    cases same
    cases mirror

def writtenUnder : List Call :=
  [.read (.volume 0) 0 1, .write (.controller .nvme) 0 1 fun _ => marked, .read (.volume 0) 0 1]

def firstByte (result : Option Run) : Option UInt8 := result.map fun run => (run 0).byte 0

def throughCache (s : State) : Option UInt8 :=
  match Call.action obliging (.read (.volume 0) 0 1) s with
  | (.ok (.sectors run), _) => firstByte run
  | _ => none

def pastCache (s : State) : Option UInt8 :=
  match readRun (devices obliging) (.volume 0) 0 1 (Call.action obliging (.read (.volume 0) 0 1) s).2 with
  | (.ok run, _) => firstByte run
  | _ => none

theorem stale_page : Fresh started ∧
    ¬ Run.Along (step obliging) (Transparent obliging) (some started) writtenUnder := by
  refine ⟨fresh_started, ?_⟩
  rintro ⟨-, -, transparent, -⟩
  generalize after : step obliging (step obliging (some started) (.read (.volume 0) 0 1))
    (.write (.controller .nvme) 0 1 fun _ => marked) = s at transparent
  have cached : s.bind throughCache = some 0 := by
    rw [← after]
    decide +kernel
  have direct : s.bind pastCache = some 1 := by
    rw [← after]
    decide +kernel
  cases s with
  | none => cases cached
  | some s =>
    simp only [throughCache, pastCache, Option.bind_some] at cached direct
    cases read : Call.action obliging (.read (.volume 0) 0 1) s with
    | mk reply s' =>
      rw [read] at cached direct
      cases again : readRun (devices obliging) (.volume 0) 0 1 s' with
      | mk reply' s'' =>
        rw [again] at direct
        match reply, reply', read, again, cached, direct with
        | .ok (.sectors (some run)), .ok (some run'), read, again, cached, direct =>
          have same := transparent s rfl (.volume 0) 0 1 rfl run s' read obliging 0 1 run' s'' le_rfl le_rfl
            again 0 Nat.one_pos
          simp only [firstByte, Option.map_some, Option.some.injEq] at cached direct
          rw [same, Nat.sub_zero, Nat.zero_add, cached] at direct
          cases direct

/-- A write to the volume itself is seen by later reads. -/
theorem written_volume_transparent : Fresh started ∧
    Run.Along (step obliging) (Transparent obliging) (some started)
      [.read (.volume 0) 0 1, .write (.volume 0) 0 1 fun _ => marked, .read (.volume 0) 0 1] := by
  refine ⟨fresh_started, (transparent_of_spares obliging started _ fresh_started ?_).1⟩
  refine ⟨?_, ?_, ?_, trivial⟩
  · intro s _ disk writes
    cases writes
  · intro s _ disk writes _ controller
    rw [mem_singleton.mp writes] at controller
    cases controller
  · intro s _ disk writes
    cases writes

end AerOS.Proof.Block
