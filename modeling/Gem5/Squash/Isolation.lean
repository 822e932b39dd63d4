import Gem5.Squash.Pipeline

/-!
# Squashes across threads

Whether the squashes of some threads leave the instructions of another alone.
-/

namespace Gem5
open List Function Or

namespace Stage
variable {n : ℕ} {st : Stage n} {x : PipeInst n}

def Holds (st : Stage n) (x : PipeInst n) : Prop :=
  x ∈ st.fixedbuffer x.threadNumber

theorem Holds.clear (h : st.Holds x) {tid : Fin n} (hx : x.threadNumber ≠ tid) :
    (st.clear tid).Holds x := by
  simp only [Holds, Stage.clear, update_of_ne hx]
  exact h

theorem Holds.push (h : st.Holds x) (tid : Fin n) (insts : List (PipeInst n)) :
    (st.push tid insts).Holds x := by
  by_cases hx : x.threadNumber = tid
  · subst hx
    simp only [Holds, Stage.push, update_self]
    exact mem_append_left insts h
  · simp only [Holds, Stage.push, update_of_ne hx]
    exact h

theorem holds_push {insts : List (PipeInst n)} (hx : x ∈ insts) :
    (st.push x.threadNumber insts).Holds x := by
  simp only [Holds, push, update_self]
  exact mem_append_right _ hx

theorem Holds.pop (h : st.Holds x) (tid : Fin n) (k : ℕ) :
    (st.pop tid k).Holds x ∨ x ∈ (st.fixedbuffer tid).take k := by
  by_cases hx : x.threadNumber = tid
  · subst hx
    simp only [Holds, Stage.pop, update_self]
    rw [Holds, ← take_append_drop k (st.fixedbuffer x.threadNumber)] at h
    exact (mem_append.1 h).symm
  · left
    simp only [Holds, Stage.pop, update_of_ne hx]
    exact h

theorem Holds.checkSquash (h : st.Holds x) {sig : CommitSignals n}
    (hx : sig x.threadNumber = none) : (st.checkSquash sig).Holds x := by
  simp only [Holds, Stage.checkSquash, hx]
  exact h

end Stage

namespace PipeState
variable {n : ℕ}

def Older (st : Stage n) (x : PipeInst n) : Prop :=
  SquashVersion.largerThan st.localSquashVer x.version = .ok true

/-- An instruction of `u` is in the way of a squash: it has an older version than a stage that
receives it, it is in a dispatch or an issue queue and younger than the instruction that IEW
squashes from, or it comes from rename when commit squashes. -/
def Exposed (u : Fin n) (s : PipeState n) : PipeEvent n → Prop
  | .decodeMove arrives => ∃ y ys rest, (s.arrive arrives).stallBuffer = (y :: ys) :: rest ∧
      s.decode.fixedbuffer y.threadNumber = [] ∧
      ∃ x ∈ y :: ys, x.threadNumber = u ∧ Older s.decode x
  | .renameMove => ∃ x ∈ s.toRename.headD [], x.threadNumber = u ∧ Older s.rename x
  | .iewMove => ∃ x ∈ s.toIEW.headD [], x.threadNumber = u ∧ Older s.iew x
  | .iewSignals => ∃ sig rest tid q, s.iewSignals = sig :: rest ∧ firstSquash sig = some (tid, q) ∧
      ∃ x ∈ s.dispQue ++ s.issued, x.threadNumber = u ∧ q.doneSeqNum < x.seqNum
  | .commitTick squashes arrives _ => squashes ≠ [] ∧ ∃ x ∈ s.slot arrives, x.threadNumber = u
  | _ => False

def InFront (s : PipeState n) (x : PipeInst n) : Prop :=
  x ∈ s.fetchQueue x.threadNumber ∨ x ∈ s.toDecode.flatten ∨ x ∈ s.stallBuffer.flatten ∨
    s.decode.Holds x ∨ x ∈ s.toRename.flatten ∨ s.rename.Holds x

def InIEW (s : PipeState n) (x : PipeInst n) : Prop :=
  x ∈ s.toIEW.flatten ∨ s.iew.Holds x ∨ x ∈ s.dispQue ∨ x ∈ s.issued ∨ x ∈ s.done

def InCommit (s : PipeState n) (x : PipeInst n) : Prop :=
  x ∈ s.toCommit.flatten ∨ s.commit.Holds x ∨ x ∈ s.rob x.threadNumber ∨ x ∈ s.retired

def InPipe (s : PipeState n) (x : PipeInst n) : Prop :=
  InFront s x ∨ InIEW s x ∧ InCommit s x

/-- No instruction of `u` is marked. -/
def Unmarked (u : Fin n) (s : PipeState n) : Prop :=
  ∀ x ∈ s.squashed, x.threadNumber ≠ u

/-- The instructions of `u` are unmarked, and each that was fetched is still in the pipeline. -/
structure Kept (u : Fin n) (s : PipeState n) : Prop where
  unmarked : Unmarked u s
  inPipe : ∀ x ∈ s.fetched, x.threadNumber = u → InPipe s x

/-- No event of the run finds an instruction of `u` exposed. -/
def Unexposed (u : Fin n) : List (PipeEvent n) → PipeState n → Prop
  | [], _ => True
  | e :: es, s => ¬ Exposed u s e ∧ ∀ t, s.step e = .ok t → Unexposed u es t

def OneThread (g : List (PipeInst n)) : Prop :=
  ∀ x ∈ g, ∀ y ∈ g, x.threadNumber = y.threadNumber

/-- The fetch queues, commit's buffers and the reorder buffer hold the instructions of their
threads, the groups before decode are of one thread each, and no signal is about `u`. -/
structure ThreadInv (u : Fin n) (s : PipeState n) : Prop where
  own : ∀ tid, ∀ x ∈ s.fetchQueue tid, x.threadNumber = tid
  toDecode : ∀ g ∈ s.toDecode, OneThread g
  stallBuffer : ∀ g ∈ s.stallBuffer, OneThread g
  commitOwn : ∀ tid, ∀ x ∈ s.commit.fixedbuffer tid, x.threadNumber = tid
  robOwn : ∀ tid, ∀ x ∈ s.rob tid, x.threadNumber = tid
  fetchSignals : ∀ sig ∈ s.fetchSignals, sig u = none
  decodeSignals : ∀ sig ∈ s.decodeSignals, sig u = none
  renameSignals : ∀ sig ∈ s.renameSignals, sig u = none
  iewSignals : ∀ sig ∈ s.iewSignals, sig u = none

/-! ### The parts of a step -/

variable {tid : Fin n} {l current marked g m : List (PipeInst n)} {f : Fin n → List (PipeInst n)}
  {x : PipeInst n} {groups : List (List (PipeInst n))} {sig : CommitSignals n}
  {rest : List (CommitSignals n)} {arrives : Bool} {st : Stage n} {squashes : List (Fin n × ℕ)}

theorem splitByVersion_ok {version : ℕ} (h : splitByVersion version tid l = .ok (current, marked)) :
    (∀ x ∈ l, x.threadNumber = tid) ∧
      (∀ x, x ∈ marked ↔ x ∈ l ∧ SquashVersion.largerThan version x.version = .ok true) ∧
      ∀ x ∈ l, x ∈ current ∨ x ∈ marked := by
  induction l generalizing current marked with
  | nil =>
    cases h
    simp
  | cons y l ih =>
    rw [splitByVersion] at h
    split at h
    · cases h
    · rename_i hy
      rw [not_not] at hy
      split at h
      · cases h
      · rename_i older holder
        split at h
        · cases h
        · rename_i c m hsplit
          obtain ⟨hown, hmarked, hall⟩ := ih hsplit
          have hown' : ∀ x ∈ y :: l, x.threadNumber = tid := by
            intro x hx
            rcases mem_cons.1 hx with rfl | hx
            · exact hy
            · exact hown x hx
          refine ⟨hown', ?_⟩
          cases older with
          | true =>
            obtain ⟨rfl, rfl⟩ := h
            grind
          | false =>
            obtain ⟨rfl, rfl⟩ := h
            grind

theorem foldl_squashInflight {u : Fin n} (slot : List (PipeInst n)) (squashes : List (Fin n × ℕ))
    (hu : ¬ ∃ q ∈ squashes, q.1 = u) (acc : PipeState n × CommitSignals n) :
    ∃ marked st sig, squashes.foldl (fun acc q => squashInflight slot q acc) acc =
        ({ acc.1 with squashed := marked, commit := st }, sig) ∧
      (∀ x, x ∈ marked ↔ x ∈ acc.1.squashed ∨ squashes ≠ [] ∧ x ∈ slot) ∧
      (∀ i, ∀ x ∈ st.fixedbuffer i, x ∈ acc.1.commit.fixedbuffer i) ∧
      st.fixedbuffer u = acc.1.commit.fixedbuffer u ∧ sig u = acc.2 u := by
  induction squashes generalizing acc with
  | nil => exact ⟨_, _, _, rfl, by simp, fun _ _ hx => hx, rfl, rfl⟩
  | cons q squashes ih =>
    have hq : u ≠ q.1 := fun heq => hu ⟨q, mem_cons_self, heq.symm⟩
    obtain ⟨marked, st, sig, hfold, hmem, hsub, hbuf, hsig⟩ :=
      ih (fun ⟨r, hr, hru⟩ => hu ⟨r, mem_cons_of_mem q hr, hru⟩) (squashInflight slot q acc)
    refine ⟨marked, st, sig, hfold, ?_, ?_, ?_, ?_⟩
    · intro x
      rw [hmem]
      simp only [squashInflight]
      grind
    · intro i x hx
      have hclear := hsub i x hx
      simp only [squashInflight, Stage.clear] at hclear
      by_cases hi : i = q.1
      · subst hi
        simp at hclear
      · rwa [update_of_ne hi] at hclear
    · rw [hbuf]
      simp [squashInflight, Stage.clear, hq]
    · rw [hsig]
      simp [squashInflight, hq]

theorem moveStalled_ok {s t : PipeState n} (h : s.moveStalled = .ok t) :
    (t = s ∨ ∃ rest, s.stallBuffer = [] :: rest ∧ t = { s with stallBuffer := rest }) ∧
        (¬ ∃ y ys rest, s.stallBuffer = (y :: ys) :: rest ∧
          s.decode.fixedbuffer y.threadNumber = []) ∨
      ∃ y ys rest current marked, s.stallBuffer = (y :: ys) :: rest ∧
        s.decode.fixedbuffer y.threadNumber = [] ∧
        splitByVersion s.decode.localSquashVer y.threadNumber (y :: ys) = .ok (current, marked) ∧
        t = { s with
          stallBuffer := rest
          decode := s.decode.push y.threadNumber (y :: ys)
          squashed := marked ++ s.squashed } := by
  unfold moveStalled at h
  split at h
  · rename_i hstall
    cases h
    exact .inl ⟨.inl rfl, by simp [hstall]⟩
  · rename_i rest hstall
    cases h
    exact .inl ⟨.inr ⟨rest, hstall, rfl⟩, by simp [hstall]⟩
  · rename_i y ys rest hstall
    dsimp only at h
    split at h
    · rename_i hbuf
      cases h
      refine .inl ⟨.inl rfl, ?_⟩
      rintro ⟨y', ys', rest', heq, hempty⟩
      rw [hstall] at heq
      cases heq
      exact hbuf hempty
    · rename_i hbuf
      rw [not_not] at hbuf
      split at h
      · cases h
      · rename_i current marked hsplit
        cases h
        exact .inr ⟨y, ys, rest, current, marked, hstall, hbuf, hsplit, rfl⟩

/-! ### One step, for a thread that is not squashed -/

/-- What a step does to the instructions of `u`. -/
structure Passes (u : Fin n) (s t : PipeState n) (exposed : Prop) : Prop where
  front : ThreadInv u t
  marked : Unmarked u t ↔ Unmarked u s ∧ ¬ exposed
  keeps : Unmarked u t → ∀ x, x.threadNumber = u → InPipe s x → InPipe t x
  fetched : Unmarked u t → ∀ x ∈ t.fetched, x.threadNumber = u → x ∈ s.fetched ∨ InPipe t x

variable {u : Fin n} {s t : PipeState n}

theorem Passes.refl (hs : ThreadInv u s) : Passes u s s False :=
  ⟨hs, by simp, fun _ _ _ h => h, fun _ _ hx _ => .inl hx⟩

theorem Passes.trans {r : PipeState n} {p q : Prop} (hst : Passes u s t p) (htr : Passes u t r q) :
    Passes u s r (p ∨ q) where
  front := htr.front
  marked := by
    rw [htr.marked, hst.marked]
    tauto
  keeps hm x hxu hx := htr.keeps hm x hxu (hst.keeps (htr.marked.1 hm).1 x hxu hx)
  fetched hm x hx hxu := by
    have hmt := (htr.marked.1 hm).1
    rcases htr.fetched hm x hx hxu with hx | hx
    · exact (hst.fetched hmt x hx hxu).imp_right (htr.keeps hm x hxu)
    · exact .inr hx

theorem mem_update {i : Fin n} (h : i ≠ tid → x ∈ f i) (h' : i = tid → x ∈ l) :
    x ∈ update f tid l i := by
  by_cases hi : i = tid
  · subst hi
    rw [update_self]
    exact h' rfl
  · rw [update_of_ne hi]
    exact h hi

theorem own_update (hf : ∀ i, ∀ x ∈ f i, x.threadNumber = i) (hl : ∀ x ∈ l, x.threadNumber = tid) :
    ∀ i, ∀ x ∈ update f tid l i, x.threadNumber = i := by
  intro i x hx
  by_cases hi : i = tid
  · subst hi
    rw [update_self] at hx
    exact hl x hx
  · rw [update_of_ne hi] at hx
    exact hf i x hx

theorem mem_flatten_of_cons {rest : List (List (PipeInst n))} (hg : groups = g :: rest)
    (hx : x ∈ groups.flatten) : x ∈ g ∨ x ∈ rest.flatten := by
  rwa [hg, flatten_cons, mem_append] at hx

theorem mem_flatten_concat_left (hx : x ∈ groups.flatten) (g : List (PipeInst n)) :
    x ∈ (groups ++ [g]).flatten := by
  rw [flatten_concat]
  exact mem_append_left g hx

theorem mem_flatten_concat_right (groups : List (List (PipeInst n))) (hx : x ∈ g) :
    x ∈ (groups ++ [g]).flatten := by
  rw [flatten_concat]
  exact mem_append_right _ hx

theorem unmarked_append (h : t.squashed = m ++ s.squashed) :
    Unmarked u t ↔ Unmarked u s ∧ ¬ ∃ x ∈ m, x.threadNumber = u := by
  simp only [Unmarked]
  grind

theorem unmarked_of_other (h : t.squashed = m ++ s.squashed) (hm : ∀ x ∈ m, x.threadNumber ≠ u) :
    Unmarked u t ↔ Unmarked u s ∧ ¬ False := by
  rw [unmarked_append h]
  grind

/-! #### Fetch -/

section
variable (hs : ThreadInv u s)
include hs

theorem buildInst_passes (tid : Fin n) : Passes u s (s.buildInst tid) False where
  front := by
    refine { hs with own := own_update hs.own fun x hx => ?_ }
    rcases mem_append.1 hx with hx | hx
    · exact hs.own tid x hx
    · rw [mem_singleton.1 hx]
      rfl
  marked := by simp [Unmarked, buildInst]
  keeps _ x _ := by
    refine imp_left (imp_left fun hx => mem_update (fun _ => hx) ?_)
    rintro rfl
    exact mem_append_left _ hx
  fetched _ x hx _ := by
    rcases mem_append.1 hx with hx | hx
    · exact .inl hx
    · rw [mem_singleton] at hx
      subst hx
      refine .inr (.inl (.inl ?_))
      simp [buildInst, newInst]

theorem sendToDecode_passes (tid : Fin n) (k : ℕ) : Passes u s (s.sendToDecode tid k) False where
  front := by
    refine { hs with
      own := own_update hs.own fun x hx => hs.own tid x (mem_of_mem_drop hx)
      toDecode := ?_ }
    intro g hg
    rcases mem_append.1 hg with hg | hg
    · exact hs.toDecode g hg
    · rw [mem_singleton] at hg
      subst hg
      intro x hx y hy
      rw [hs.own tid x (mem_of_mem_take hx), hs.own tid y (mem_of_mem_take hy)]
  marked := by simp [Unmarked, sendToDecode]
  keeps _ x _ := by
    refine imp_left ?_
    rintro (hx | hx | hx)
    · by_cases hi : x.threadNumber = tid
      · subst hi
        rw [← take_append_drop k (s.fetchQueue x.threadNumber)] at hx
        rcases mem_append.1 hx with hx | hx
        · exact .inr (.inl (mem_flatten_concat_right s.toDecode hx))
        · exact .inl (by simp [sendToDecode, hx])
      · exact .inl (by simpa [sendToDecode, hi] using hx)
    · exact .inr (.inl (mem_flatten_concat_left hx _))
    · exact .inr (.inr hx)
  fetched _ _ hx _ := .inl hx

theorem fetchSquash_passes (hsig : s.fetchSignals = sig :: rest) :
    Passes u s { s.fetchSquash sig with fetchSignals := rest } False := by
  have hu : sig u = none := hs.fetchSignals sig (by simp [hsig])
  refine ⟨{ hs with own := ?_, fetchSignals := ?_ }, unmarked_of_other rfl ?_, ?_, ?_⟩
  · intro i x hx
    simp only [fetchSquash] at hx
    split at hx
    · cases hx
    · exact hs.own i x hx
  · intro sig' h
    exact hs.fetchSignals sig' (by simp [hsig, h])
  · intro x hx
    obtain ⟨i, hi, hx⟩ := mem_flatMap.1 hx
    simp only [notInROB, mem_filter, Bool.and_eq_true, decide_eq_true_eq] at hi hx
    rw [hx.2.1.1]
    rintro rfl
    simp [hu] at hi
  · intro _ x hx
    refine imp_left (imp_left fun hmem => ?_)
    simp only [fetchSquash, hx, hu]
    rw [hx] at hmem
    exact hmem
  · exact fun _ _ hx _ => .inl hx

theorem fetchDecodeSquash_passes (htid : tid ≠ u) (seqNum : ℕ) :
    Passes u s (s.fetchDecodeSquash tid seqNum) False := by
  refine ⟨{ hs with own := own_update hs.own (forall_mem_nil _) }, unmarked_of_other rfl ?_,
    ?_, fun _ _ hx _ => .inl hx⟩
  · intro x hx
    simp only [youngerThan, mem_filter, Bool.and_eq_true, decide_eq_true_eq] at hx
    rw [hx.2.1]
    exact htid
  · intro _ x hx
    refine imp_left (imp_left fun hmem => mem_update (fun _ => hmem) fun heq => ?_)
    exact absurd (heq.symm.trans hx) htid
end

/-! #### Decode -/

theorem arrive_passes (hs : ThreadInv u s) (arrives : Bool) :
    Passes u s (s.arrive arrives) False := by
  unfold arrive
  split
  · rename_i group rest hgroup
    refine ⟨{ hs with toDecode := ?_, stallBuffer := ?_ }, by simp [Unmarked], ?_,
      fun _ _ hx _ => .inl hx⟩
    · intro g hg
      exact hs.toDecode g (by simp [hgroup, hg])
    · intro g hg
      rcases mem_append.1 hg with hg | hg
      · exact hs.stallBuffer g hg
      · rw [mem_singleton] at hg
        exact hs.toDecode g (by simp [hgroup, hg])
    · intro _ x hx
      refine imp_left (imp_right ?_)
      rintro (hx | hx | hx)
      · rcases mem_flatten_of_cons hgroup hx with hx | hx
        · exact .inr (.inl (mem_flatten_concat_right s.stallBuffer hx))
        · exact .inl hx
      · exact .inr (.inl (mem_flatten_concat_left hx _))
      · exact .inr (.inr hx)
  · exact .refl hs

theorem moveStalled_passes (hs : ThreadInv u s) (h : s.moveStalled = .ok t) :
    Passes u s t (∃ y ys rest, s.stallBuffer = (y :: ys) :: rest ∧
      s.decode.fixedbuffer y.threadNumber = [] ∧
      ∃ x ∈ y :: ys, x.threadNumber = u ∧ Older s.decode x) := by
  rcases moveStalled_ok h with
    ⟨hsame, hnone⟩ | ⟨y, ys, rest, current, marked, hstall, hbuf, hsplit, rfl⟩
  · have hexp : ¬ ∃ y ys rest, s.stallBuffer = (y :: ys) :: rest ∧
        s.decode.fixedbuffer y.threadNumber = [] ∧
        ∃ x ∈ y :: ys, x.threadNumber = u ∧ Older s.decode x :=
      fun ⟨y, ys, rest, hy, hbuf, _⟩ => hnone ⟨y, ys, rest, hy, hbuf⟩
    rcases hsame with rfl | ⟨rest, hstall, rfl⟩
    · exact ⟨hs, by simp only [hexp, not_false_eq_true, and_true], fun _ _ _ h => h,
        fun _ _ hx _ => .inl hx⟩
    · refine ⟨{ hs with stallBuffer := ?_ }, ?_, ?_, fun _ _ hx _ => .inl hx⟩
      · intro g hg
        exact hs.stallBuffer g (by simp [hstall, hg])
      · simp only [hexp, not_false_eq_true, and_true]
        rfl
      · intro _ x _
        refine imp_left (imp_right (imp_right (imp_left fun hx => ?_)))
        simpa [hstall] using hx
  · obtain ⟨hown, hmarked, _⟩ := splitByVersion_ok hsplit
    refine ⟨{ hs with stallBuffer := ?_ }, ?_, ?_, fun _ _ hx _ => .inl hx⟩
    · intro g hg
      exact hs.stallBuffer g (by simp [hstall, hg])
    · rw [unmarked_append rfl]
      refine and_congr_right fun _ => not_congr ⟨?_, ?_⟩
      · rintro ⟨x, hx, hxu⟩
        obtain ⟨hxg, hxo⟩ := (hmarked x).1 hx
        exact ⟨y, ys, rest, hstall, hbuf, x, hxg, hxu, hxo⟩
      · rintro ⟨y', ys', rest', heq, _, x, hx, hxu, hxo⟩
        rw [hstall] at heq
        cases heq
        exact ⟨x, (hmarked x).2 ⟨hx, hxo⟩, hxu⟩
    · intro _ x _
      refine imp_left (imp_right (imp_right ?_))
      rintro (hx | hx | hx)
      · rcases mem_flatten_of_cons hstall hx with hx | hx
        · refine .inr (.inl ?_)
          rw [← hown x hx]
          exact Stage.holds_push hx
        · exact .inl hx
      · exact .inr (.inl (hx.push _ _))
      · exact .inr (.inr hx)

theorem decodeMove_passes (hs : ThreadInv u s) (h : s.decodeMove arrives = .ok t) :
    Passes u s t (Exposed u s (.decodeMove arrives)) := by
  have harrive := arrive_passes hs arrives
  have hdecode : (s.arrive arrives).decode = s.decode := by
    unfold arrive
    split <;> rfl
  have hmove := moveStalled_passes harrive.front h
  rw [hdecode] at hmove
  have hboth := harrive.trans hmove
  rw [false_or] at hboth
  exact hboth

theorem mem_keepGroups (squashes : Fin n → Bool) (hone : ∀ g ∈ groups, OneThread g)
    (hx : x ∈ groups.flatten) (hu : squashes x.threadNumber = false) :
    x ∈ (keepGroups squashes groups).flatten := by
  obtain ⟨g, hg, hxg⟩ := mem_flatten.1 hx
  refine mem_flatten.2 ⟨g, mem_filter.2 ⟨hg, ?_⟩, hxg⟩
  cases hhead : g.head? with
  | none => rfl
  | some y =>
    have hy : y.threadNumber = x.threadNumber := hone g hg y (mem_of_mem_head? hhead) x hxg
    simp [hy, hu]

theorem decodeSquash_passes (hs : ThreadInv u s) (hsig : s.decodeSignals = sig :: rest) :
    Passes u s { s.decodeSquash sig with decodeSignals := rest } False := by
  have hu : sig u = none := hs.decodeSignals sig (by simp [hsig])
  refine ⟨{ hs with stallBuffer := ?_, decodeSignals := ?_ }, by simp [Unmarked, decodeSquash], ?_,
    fun _ _ hx _ => .inl hx⟩
  · intro g hg
    exact hs.stallBuffer g (mem_of_mem_filter hg)
  · intro sig' h
    exact hs.decodeSignals sig' (by simp [hsig, h])
  · rintro _ x rfl
    refine imp_left (imp_right (imp_right (imp ?_ (imp_left ?_))))
    · intro hx
      exact mem_keepGroups (fun i => (sig i).isSome) hs.stallBuffer hx (by simp [hu])
    · intro hx
      exact hx.checkSquash hu

theorem decodeSelfSquash_passes (hs : ThreadInv u s) (htid : tid ≠ u) (seqNum : ℕ) :
    Passes u s (s.decodeSelfSquash tid seqNum) False := by
  refine ⟨{ hs with stallBuffer := ?_ }, unmarked_of_other rfl ?_, ?_, fun _ _ hx _ => .inl hx⟩
  · intro g hg
    exact hs.stallBuffer g (mem_of_mem_filter hg)
  · intro x hx
    simp only [youngerThan, mem_filter, Bool.and_eq_true, decide_eq_true_eq] at hx
    rw [hx.2.1]
    exact htid
  · rintro _ x rfl
    refine imp_left (imp_right (imp_right (imp ?_ (imp_left ?_))))
    · intro hx
      exact mem_keepGroups (· = tid) hs.stallBuffer hx (by simpa using htid.symm)
    · intro hx
      exact hx.clear htid.symm

theorem mem_taken (hs : Unmarked u s) (hx : st.Holds x) (hxu : x.threadNumber = u) (tid : Fin n)
    (k : ℕ) : (st.pop tid k).Holds x ∨ x ∈ s.taken st tid k := by
  refine (hx.pop tid k).imp_right fun h => mem_filter.2 ⟨h, ?_⟩
  simpa using fun hmem => hs x hmem hxu

theorem decodeInsts_passes (hs : ThreadInv u s) (tid : Fin n) (k : ℕ) :
    Passes u s (s.decodeInsts tid k) False := by
  refine ⟨{ hs with }, by simp [Unmarked, decodeInsts], ?_, fun _ _ hx _ => .inl hx⟩
  intro hm x hxu
  refine imp_left (imp_right (imp_right (imp_right ?_)))
  rintro (hx | hx | hx)
  · refine (mem_taken (s := s) hm hx hxu tid k).imp_right fun h => .inl ?_
    exact mem_flatten_concat_right s.toRename h
  · exact .inr (.inl (mem_flatten_concat_left hx _))
  · exact .inr (.inr hx)

/-! #### Rename -/

theorem moved_passes {y : PipeInst n} {ys : List (PipeInst n)}
    (hsplit : splitByVersion st.localSquashVer y.threadNumber (y :: ys) = .ok (current, marked))
    (hsq : t.squashed = marked ++ s.squashed) :
    (Unmarked u t ↔ Unmarked u s ∧ ¬ ∃ x ∈ y :: ys, x.threadNumber = u ∧ Older st x) ∧
      (Unmarked u t → ∀ x ∈ y :: ys, x.threadNumber = u →
        (st.push y.threadNumber current).Holds x) := by
  obtain ⟨hown, hmarked, hall⟩ := splitByVersion_ok hsplit
  refine ⟨?_, ?_⟩
  · rw [unmarked_append hsq]
    refine and_congr_right fun _ => not_congr ⟨?_, ?_⟩
    · rintro ⟨x, hx, hxu⟩
      obtain ⟨hxg, hxo⟩ := (hmarked x).1 hx
      exact ⟨x, hxg, hxu, hxo⟩
    · rintro ⟨x, hx, hxu, hxo⟩
      exact ⟨x, (hmarked x).2 ⟨hx, hxo⟩, hxu⟩
  · intro hm x hx hxu
    rcases hall x hx with hcur | hmark
    · rw [← hown x hx]
      exact Stage.holds_push hcur
    · exact absurd hxu (hm x (by rw [hsq]; exact mem_append_left _ hmark))

theorem renameMove_passes (hs : ThreadInv u s) (h : s.renameMove = .ok t) :
    Passes u s t (Exposed u s .renameMove) := by
  unfold renameMove at h
  split at h
  · rename_i hgroups
    cases h
    exact ⟨hs, by simp [Exposed, hgroups], fun _ _ _ h => h, fun _ _ hx _ => .inl hx⟩
  · rename_i rest hgroups
    cases h
    refine ⟨{ hs with }, by simp [Exposed, hgroups, Unmarked], ?_, fun _ _ hx _ => .inl hx⟩
    intro _ x _
    refine imp_left (imp_right (imp_right (imp_right (imp_right ?_))))
    refine imp_left fun hx => ?_
    simpa [hgroups] using hx
  · rename_i y ys rest hgroups
    dsimp only at h
    split at h
    · cases h
    · rename_i current marked hsplit
      cases h
      refine ⟨{ hs with }, (moved_passes hsplit rfl).1.trans ?_, ?_, fun _ _ hx _ => .inl hx⟩
      · simp only [Exposed, hgroups, headD_cons]
      · intro hm x hxu
        refine imp_left (imp_right (imp_right (imp_right (imp_right ?_))))
        rintro (hx | hx)
        · rcases mem_flatten_of_cons hgroups hx with hx | hx
          · exact .inr ((moved_passes hsplit rfl).2 hm x hx hxu)
          · exact .inl hx
        · exact .inr (hx.push _ _)

theorem renameSquash_passes (hs : ThreadInv u s) (hsig : s.renameSignals = sig :: rest) :
    Passes u s { s.renameSquash sig with renameSignals := rest } False := by
  have hu : sig u = none := hs.renameSignals sig (by simp [hsig])
  refine ⟨{ hs with renameSignals := ?_ }, by simp [Unmarked, renameSquash], ?_,
    fun _ _ hx _ => .inl hx⟩
  · intro sig' h
    exact hs.renameSignals sig' (by simp [hsig, h])
  · rintro _ x rfl
    refine imp_left (imp_right (imp_right (imp_right (imp_right ?_))))
    exact imp_right fun hx => hx.checkSquash hu

theorem renameInsts_passes (hs : ThreadInv u s) (tid : Fin n) (k : ℕ) :
    Passes u s (s.renameInsts tid k) False := by
  refine ⟨{ hs with }, by simp [Unmarked, renameInsts], ?_, fun _ _ hx _ => .inl hx⟩
  rintro hm x hxu (hfront | ⟨hiew, hcommit⟩)
  · unfold InFront at hfront
    by_cases hx : s.rename.Holds x
    · rcases mem_taken (s := s) hm hx hxu tid k with hx | hx
      · exact .inl (.inr (.inr (.inr (.inr (.inr hx)))))
      · exact .inr ⟨.inl (mem_flatten_concat_right s.toIEW hx),
          .inl (mem_flatten_concat_right s.toCommit hx)⟩
    · simp only [InPipe, InFront]
      tauto
  · exact .inr ⟨hiew.imp_left fun hx => mem_flatten_concat_left hx _,
      hcommit.imp_left fun hx => mem_flatten_concat_left hx _⟩

/-! #### IEW -/

theorem iewMove_passes (hs : ThreadInv u s) (h : s.iewMove = .ok t) :
    Passes u s t (Exposed u s .iewMove) := by
  unfold iewMove at h
  split at h
  · rename_i hgroups
    cases h
    exact ⟨hs, by simp [Exposed, hgroups], fun _ _ _ h => h, fun _ _ hx _ => .inl hx⟩
  · rename_i rest hgroups
    cases h
    refine ⟨{ hs with }, by simp [Exposed, hgroups, Unmarked], ?_, fun _ _ hx _ => .inl hx⟩
    intro _ x _
    refine imp_right (And.imp_left (imp_left fun hx => ?_))
    simpa [hgroups] using hx
  · rename_i y ys rest hgroups
    dsimp only at h
    split at h
    · cases h
    · split at h
      · cases h
      · rename_i current marked hsplit
        cases h
        refine ⟨{ hs with }, (moved_passes hsplit rfl).1.trans ?_, ?_, fun _ _ hx _ => .inl hx⟩
        · simp only [Exposed, hgroups, headD_cons]
        · intro hm x hxu
          refine imp_right (And.imp_left ?_)
          rintro (hx | hx | hx)
          · rcases mem_flatten_of_cons hgroups hx with hx | hx
            · exact .inr (.inl ((moved_passes hsplit rfl).2 hm x hx hxu))
            · exact .inl hx
          · exact .inr (.inl (hx.push _ _))
          · exact .inr (.inr hx)

theorem firstSquash_some {q : SquashInfo} (h : firstSquash sig = some (tid, q)) :
    sig tid = some q := by
  obtain ⟨i, _, hi⟩ := exists_of_findSome?_eq_some h
  cases hsig : sig i with
  | none => simp [hsig] at hi
  | some r =>
    simp only [hsig] at hi
    obtain ⟨rfl, rfl⟩ := hi
    exact hsig

theorem iewSquash_passes (hs : ThreadInv u s) (hsig : s.iewSignals = sig :: rest) :
    Passes u s { s.iewCheckSquash sig with iewSignals := rest } (Exposed u s .iewSignals) := by
  have hu : sig u = none := hs.iewSignals sig (by simp [hsig])
  have hrest : ∀ sig' ∈ rest, sig' u = none := fun sig' h => hs.iewSignals sig' (by simp [hsig, h])
  unfold iewCheckSquash
  split
  · rename_i hfirst
    refine ⟨{ hs with iewSignals := hrest }, ?_, fun _ _ _ h => h, fun _ _ hx _ => .inl hx⟩
    simp [Exposed, hsig, hfirst, Unmarked]
  · rename_i tid q hfirst
    have htid : tid ≠ u := by
      rintro rfl
      simp [firstSquash_some hfirst] at hu
    refine ⟨{ hs with iewSignals := hrest }, ?_, ?_, fun _ _ hx _ => .inl hx⟩
    · rw [unmarked_append rfl]
      refine and_congr_right fun _ => not_congr ⟨?_, ?_⟩
      · rintro ⟨x, hx, hxu⟩
        simp only [mem_filter, decide_eq_true_eq] at hx
        exact ⟨sig, rest, tid, q, hsig, hfirst, x, hx.1, hxu, hx.2⟩
      · rintro ⟨sig', rest', tid', q', hsig', hfirst', x, hx, hxu, hlt⟩
        rw [hsig] at hsig'
        cases hsig'
        rw [hfirst] at hfirst'
        cases hfirst'
        exact ⟨x, mem_filter.2 ⟨hx, by simpa using hlt⟩, hxu⟩
    · rintro hm x rfl
      refine imp_right (And.imp_left (imp_right (imp ?_ (imp_right (imp_left ?_)))))
      · intro hx
        exact hx.clear htid.symm
      · -- one that leaves the queue has been marked
        intro hx
        refine mem_filter.2 ⟨hx, ?_⟩
        rw [Bool.not_eq_true', decide_eq_false_iff_not]
        intro hlt
        exact hm x
          (mem_append_left _ (mem_filter.2 ⟨mem_append_right _ hx, by simpa using hlt⟩)) rfl

theorem dispatch_passes (hs : ThreadInv u s) (tid : Fin n) (k : ℕ) :
    Passes u s (s.dispatch tid k) False := by
  refine ⟨{ hs with }, by simp [Unmarked, dispatch], ?_, fun _ _ hx _ => .inl hx⟩
  intro hm x hxu
  refine imp_right (And.imp_left (imp_right ?_))
  rintro (hx | hx | hx)
  · refine (mem_taken (s := s) hm hx hxu tid k).imp_right fun h => .inl ?_
    exact mem_append_right _ h
  · exact .inr (.inl (mem_append_left _ hx))
  · exact .inr (.inr hx)

theorem issue_passes (hs : ThreadInv u s) (inst : PipeInst n) :
    Passes u s (s.issue inst) False := by
  unfold issue
  split
  · exact .refl hs
  split
  · rename_i hsq
    refine ⟨{ hs with }, by simp [Unmarked], ?_, fun _ _ hx _ => .inl hx⟩
    intro hm x hxu
    refine imp_right (And.imp_left (imp_right (imp_right (imp_left fun hx => ?_))))
    have hne : x ≠ inst := by
      rintro rfl
      exact hm x hsq hxu
    exact (mem_erase_of_ne hne).2 hx
  · refine ⟨{ hs with }, by simp [Unmarked], ?_, fun _ _ hx _ => .inl hx⟩
    intro hm x hxu
    refine imp_right (And.imp_left (imp_right (imp_right ?_)))
    rintro (hx | hx | hx)
    · by_cases hxi : x = inst
      · exact .inr (.inl (by simp [hxi]))
      · exact .inl ((mem_erase_of_ne hxi).2 hx)
    · exact .inr (.inl (mem_append_left _ hx))
    · exact .inr (.inr hx)

theorem doCommit_passes (hs : ThreadInv u s) (inst : PipeInst n) :
    Passes u s (s.doCommit inst) False := by
  unfold doCommit
  split
  · refine ⟨{ hs with }, by simp [Unmarked], ?_, fun _ _ hx _ => .inl hx⟩
    intro hm x hxu
    refine imp_right (And.imp_left (imp_right (imp_right (imp_right ?_))))
    rintro (hx | hx)
    · by_cases hxi : x = inst
      · exact .inr (by simp [hxi])
      · exact .inl ((mem_erase_of_ne hxi).2 hx)
    · exact .inr (mem_append_left _ hx)
  · exact .refl hs

/-! #### Commit -/

theorem commitReceive_ok {slot : List (PipeInst n)} (h : s.commitReceive slot = .ok t) :
    ∃ st, t = { s with commit := st } ∧ (∀ x, s.commit.Holds x → st.Holds x) ∧
      (Unmarked u s → ∀ x ∈ slot, x.threadNumber = u → st.Holds x) ∧
      ((∀ i, ∀ x ∈ s.commit.fixedbuffer i, x.threadNumber = i) →
        ∀ i, ∀ x ∈ st.fixedbuffer i, x.threadNumber = i) := by
  unfold commitReceive at h
  split at h
  · cases h
    exact ⟨_, rfl, fun _ hx => hx, fun _ x hx => absurd hx not_mem_nil, fun hown => hown⟩
  · rename_i y ys
    dsimp only at h
    split_ifs at h with hbuf hone
    cases h
    have htid : ∀ x ∈ y :: ys, x.threadNumber = y.threadNumber := by
      intro x hx
      by_contra hne
      exact hone (any_eq_true.2 ⟨x, hx, by simpa using hne⟩)
    refine ⟨_, rfl, fun x hx => hx.push _ _, ?_, ?_⟩
    · intro hm x hx hxu
      rw [← htid x hx]
      exact Stage.holds_push (mem_filter.2 ⟨hx, by simpa using fun hsq => hm x hsq hxu⟩)
    · intro hown
      refine own_update hown fun x hx => ?_
      rcases mem_append.1 hx with hx | hx
      · exact hown _ x hx
      · exact htid x (mem_of_mem_filter hx)

theorem insertRob_passes (hs : ThreadInv u s) (tid : Fin n) :
    Passes u s (s.insertRob tid) False := by
  refine ⟨{ hs with
    commitOwn := own_update hs.commitOwn (forall_mem_nil _)
    robOwn := own_update hs.robOwn fun x hx => ?_ }, by simp [Unmarked, insertRob], ?_,
    fun _ _ hx _ => .inl hx⟩
  · rcases mem_append.1 hx with hx | hx
    · exact hs.robOwn tid x hx
    · exact hs.commitOwn tid x (mem_of_mem_filter hx)
  intro hm x hxu
  refine imp_right (And.imp_right (imp_right ?_))
  rintro (hx | hx | hx)
  · by_cases htid : x.threadNumber = tid
    · refine .inr (.inl (mem_update (fun h => absurd htid h) fun _ => ?_))
      refine mem_append_right _ (mem_filter.2 ⟨htid ▸ hx, ?_⟩)
      exact decide_eq_true fun hsq => hm x hsq hxu
    · exact .inl (hx.clear htid)
  · refine .inr (.inl (mem_update (fun _ => hx) fun htid => ?_))
    exact mem_append_left _ (htid ▸ hx)
  · exact .inr (.inr hx)

theorem mem_slot_or (hx : x ∈ s.toCommit.flatten) : x ∈ s.slot arrives ∨
      x ∈ (if arrives then s.toCommit.tail else s.toCommit).flatten := by
  unfold slot
  cases arrives with
  | false => exact .inr hx
  | true =>
    cases hgroups : s.toCommit with
    | nil => simp [hgroups] at hx
    | cons g rest => exact mem_flatten_of_cons hgroups hx

section
variable (hs : ThreadInv u s)
include hs

theorem commitReceive_passes (hu : ¬ ∃ q ∈ squashes, q.1 = u)
    (h : (s.commitSquashes squashes arrives).commitReceive (s.slot arrives) = .ok t) :
    Passes u s t (squashes ≠ [] ∧ ∃ x ∈ s.slot arrives, x.threadNumber = u) := by
  obtain ⟨st', ht, hkeep, hslot, hown⟩ := commitReceive_ok (u := u) h
  obtain ⟨marked, st, sig, hfold, hmem, hsub, hbuf, hsig⟩ :=
    foldl_squashInflight (s.slot arrives) squashes hu (s, fun _ => none)
  have hlast {l : List (CommitSignals n)} (hl : ∀ g ∈ l, g u = none) :
      ∀ g ∈ l ++ [sig], g u = none := by
    intro g hg
    rcases mem_append.1 hg with hg | hg
    · exact hl g hg
    · rw [mem_singleton.1 hg, hsig]
  simp only [commitSquashes, hfold] at ht hkeep hslot hown
  subst ht
  refine ⟨⟨hs.own, hs.toDecode, hs.stallBuffer, ?_, hs.robOwn, hlast hs.fetchSignals,
    hlast hs.decodeSignals, hlast hs.renameSignals, hlast hs.iewSignals⟩, ?_, ?_,
    fun _ _ hx _ => .inl hx⟩
  · exact hown fun i x hx => hs.commitOwn i x (hsub i x hx)
  · simp only [Unmarked, broadcast]
    grind
  · rintro hm x rfl
    refine imp_right (And.imp_right ?_)
    rintro (hx | hx | hx)
    · rcases mem_slot_or hx with hx | hx
      · exact .inr (.inl (hslot hm x hx rfl))
      · exact .inl hx
    · refine .inr (.inl (hkeep x ?_))
      change x ∈ st.fixedbuffer x.threadNumber
      rw [hbuf]
      exact hx
    · exact .inr (.inr hx)

theorem commitTick_passes {insert : Option (Fin n)}
    (hu : ¬ ∃ q ∈ squashes, q.1 = u) (h : s.commitTick squashes arrives insert = .ok t) :
    Passes u s t (Exposed u s (.commitTick squashes arrives insert)) := by
  unfold commitTick at h
  split at h
  · cases h
  · rename_i r hr
    cases h
    have hpasses := commitReceive_passes hs hu hr
    cases insert with
    | none => exact hpasses
    | some tid =>
      have hinsert := insertRob_passes hpasses.front tid
      have hboth := hpasses.trans hinsert
      rw [or_false] at hboth
      exact hboth

theorem robWalk_passes (htid : tid ≠ u) (seqNum : ℕ) : Passes u s (s.robWalk tid seqNum) False := by
  refine ⟨{ hs with
    robOwn := own_update hs.robOwn fun x hx => hs.robOwn tid x (mem_of_mem_filter hx) },
    unmarked_of_other rfl ?_, ?_, fun _ _ hx _ => .inl hx⟩
  · intro x hx
    rw [hs.robOwn tid x (mem_of_mem_filter hx)]
    exact htid
  · rintro _ x rfl
    refine imp_right (And.imp_right (imp_right (imp_right (imp_left fun hx => ?_))))
    exact mem_update (fun _ => hx) fun h => absurd h.symm htid

theorem retire_passes (tid : Fin n) : Passes u s (s.retire tid) False := by
  refine ⟨{ hs with
    robOwn := own_update hs.robOwn fun x hx => hs.robOwn tid x (mem_of_mem_tail hx) },
    by simp [Unmarked, retire], ?_, fun _ _ hx _ => .inl hx⟩
  intro _ x _
  refine imp_right (And.imp_right (imp_right (imp_right ?_)))
  rintro (hx | hx)
  · by_cases htid : x.threadNumber = tid
    · subst htid
      rw [← take_append_drop 1 (s.rob x.threadNumber)] at hx
      rcases mem_append.1 hx with hx | hx
      · exact .inr (mem_append_right _ hx)
      · exact .inl (by simpa [retire] using hx)
    · exact .inl (by simpa [retire, htid] using hx)
  · exact .inr (mem_append_left _ hx)
end

/-! ### Runs -/

theorem step_passes (hs : ThreadInv u s) {e : PipeEvent n} (he : ¬ e.Squashes u)
    (h : s.step e = .ok t) : Passes u s t (Exposed u s e) := by
  cases e with
  | buildInst tid =>
    cases h
    exact buildInst_passes hs tid
  | sendToDecode tid k =>
    cases h
    exact sendToDecode_passes hs tid k
  | fetchSignals =>
    rw [step] at h
    split at h
    · cases h
      exact .refl hs
    · rename_i sig rest hsig
      cases h
      exact fetchSquash_passes hs hsig
  | fetchDecodeSquash tid seqNum =>
    cases h
    exact fetchDecodeSquash_passes hs he seqNum
  | decodeMove arrives => exact decodeMove_passes hs h
  | decodeSignals =>
    rw [step] at h
    split at h
    · cases h
      exact .refl hs
    · rename_i sig rest hsig
      cases h
      exact decodeSquash_passes hs hsig
  | decodeSelfSquash tid seqNum =>
    cases h
    exact decodeSelfSquash_passes hs he seqNum
  | decodeInsts tid k =>
    cases h
    exact decodeInsts_passes hs tid k
  | renameMove => exact renameMove_passes hs h
  | renameSignals =>
    rw [step] at h
    split at h
    · cases h
      exact .refl hs
    · rename_i sig rest hsig
      cases h
      exact renameSquash_passes hs hsig
  | renameInsts tid k =>
    cases h
    exact renameInsts_passes hs tid k
  | iewMove => exact iewMove_passes hs h
  | iewSignals =>
    rw [step] at h
    split at h
    · rename_i hsig
      cases h
      exact ⟨hs, by simp [Exposed, hsig], fun _ _ _ h => h, fun _ _ hx _ => .inl hx⟩
    · rename_i sig rest hsig
      cases h
      exact iewSquash_passes hs hsig
  | dispatch tid k =>
    cases h
    exact dispatch_passes hs tid k
  | issue inst =>
    cases h
    exact issue_passes hs inst
  | doCommit inst =>
    cases h
    exact doCommit_passes hs inst
  | commitTick squashes arrives insert => exact commitTick_passes hs he h
  | robWalk tid seqNum =>
    cases h
    exact robWalk_passes hs he seqNum
  | retire tid =>
    cases h
    exact retire_passes hs tid

theorem run_kept {es : List (PipeEvent n)} (hs : ThreadInv u s) (hes : ∀ e ∈ es, ¬ e.Squashes u)
    (h : run es s = .ok t) : (Unmarked u t ↔ Unmarked u s ∧ Unexposed u es s) ∧
      (Unmarked u t → (∀ x ∈ s.fetched, x.threadNumber = u → InPipe s x) →
        ∀ x ∈ t.fetched, x.threadNumber = u → InPipe t x) := by
  induction es generalizing s with
  | nil =>
    cases h
    exact ⟨by simp [Unexposed], fun _ hx => hx⟩
  | cons e es ih =>
    rw [run] at h
    cases hstep : s.step e with
    | error m =>
      rw [hstep] at h
      cases h
    | ok r =>
      rw [hstep] at h
      have hpasses := step_passes hs (hes e mem_cons_self) hstep
      obtain ⟨hmarked, hkeeps⟩ :=
        ih hpasses.front (fun e' he' => hes e' (mem_cons_of_mem e he')) h
      refine ⟨?_, ?_⟩
      · have hall : (∀ r', s.step e = .ok r' → Unexposed u es r') ↔ Unexposed u es r := by
          simp [hstep]
        rw [hmarked, hpasses.marked, Unexposed, hall, and_assoc]
      · intro hm hkept
        have hmr : Unmarked u r := (hmarked.1 hm).1
        refine hkeeps hm fun x hx hxu => ?_
        rcases hpasses.fetched hmr x hx hxu with hx | hx
        · exact hpasses.keeps hmr x hxu (hkept x hx hxu)
        · exact hx

theorem threadInv_start (u : Fin n) : ThreadInv u (start : PipeState n) := by
  constructor <;> simp [start, Stage.start]

end PipeState

section

open PipeState

def squashedThread : Fin 2 :=
  ⟨0, Nat.two_pos⟩

def keptThread : Fin 2 :=
  ⟨1, Nat.one_lt_two⟩

/-- An instruction of the second thread goes all the way to the issue queues and the reorder buffer,
one of the first thread follows it to decode, and then the first thread is squashed from there
on. -/
def apartRun : List (PipeEvent 2) :=
  [.buildInst keptThread, .sendToDecode keptThread 1, .decodeMove true, .decodeInsts keptThread 1,
    .renameMove, .renameInsts keptThread 1, .iewMove, .dispatch keptThread 1,
    .issue ⟨1, keptThread, 0⟩, .commitTick [] true (some keptThread), .buildInst squashedThread,
    .sendToDecode squashedThread 1, .decodeMove true, .commitTick [(squashedThread, 1)] false none,
    .fetchSignals, .decodeSignals, .iewSignals, .buildInst keptThread]

/-- One instruction of the second thread comes from rename in the cycle in which commit squashes the
first thread; another is on its way to decode and has the version before that squash. -/
def crossRun : List (PipeEvent 2) :=
  [.buildInst keptThread, .sendToDecode keptThread 1, .decodeMove true, .decodeInsts keptThread 1,
    .renameMove, .renameInsts keptThread 1, .buildInst keptThread, .sendToDecode keptThread 1,
    .commitTick [(squashedThread, 0)] true none, .decodeSignals, .decodeMove true,
    .decodeInsts keptThread 1]

end
end Gem5
