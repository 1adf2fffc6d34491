import HarmonyMigration.Messages.Collect

/-! Any counter that moves, in each block, by the logs that are accepted there: every nonce of a range gets the log
that moved the counter to it, whichever ranges of blocks are read. -/

namespace HarmonyMigration.Messages

section History

variable (c : Counter) (logs : List Log) (kinds : List Kind) (accept : Log → Bool)

/-- A log that one of the topic filters matches and that is not dropped. -/
def accepted (l : Log) : Bool := l.kind ∈ kinds ∧ accept l

def acceptedIn (block : ℕ) : List Log := logs.filter fun l => accepted kinds accept l ∧ l.block = block

/-- Each block moves the counter by the logs accepted in it, so the counter never falls. -/
def CountsLogs : Prop := ∀ block : ℕ, c.read block = c.read (block - 1) + (acceptedIn logs kinds accept block).length

/-- The log of a block that moved the counter to `nonce`. The increments of a block come in log order. -/
def Performs (nonce : ℕ) (l : Log) : Prop :=
  c.read (l.block - 1) < nonce ∧
    (acceptedIn logs kinds accept l.block)[nonce - c.read (l.block - 1) - 1]? = some l

end History

section Exact

variable {c : Counter} {logs : List Log} {kinds : List Kind} {accept : Log → Bool} {low high rangeSize : ℕ}
  {search : ℕ × ℕ}

/-- The history as a stream. -/
def streamOf (kinds : List Kind) (accept : Log → Bool) (hordered : logs.Pairwise fun a b => a.key < b.key)
    (hkinds : kinds.Nodup) : Stream where
  logs := logs
  accept := accepted kinds accept
  kinds := kinds
  ordered := hordered
  distinct := hkinds
  known := fun _ _ h => (of_decide_eq_true h).1

/-- The filters read no log of another kind. -/
theorem foundLogs_accepted (logs : List Log) (kinds : List Kind) (accept : Log → Bool) (ws : List (ℕ × ℕ)) :
    foundLogs logs kinds accept ws = foundLogs logs kinds (accepted kinds accept) ws := by
  unfold foundLogs
  dsimp only
  apply congrArg
  apply List.flatMap_congr
  intro kind hkind
  apply List.flatMap_congr
  intro w _
  apply List.filter_congr
  intro l hl
  rw [rpcLogs, List.mem_filter] at hl
  obtain ⟨hl, -, -⟩ := of_decide_eq_true hl.2
  rw [accepted, hl, Bool.eq_iff_iff, decide_eq_true_eq]
  exact ⟨fun h => ⟨hkind, h⟩, And.right⟩

theorem windowEvents_accepted (c : Counter) (logs : List Log) (kinds : List Kind) (accept : Log → Bool)
    (low high : ℕ) (ws : List (ℕ × ℕ)) :
    windowEvents c logs kinds accept low high ws = windowEvents c logs kinds (accepted kinds accept) low high ws := by
  unfold windowEvents
  rw [foundLogs_accepted]

variable (hordered : logs.Pairwise fun a b => a.key < b.key) (hkinds : kinds.Nodup)

/-- A counter that counts its logs is the number of messages up to a block. -/
theorem counter_eq (hcounts : CountsLogs c logs kinds accept) : c = (streamOf kinds accept hordered hkinds).counter := by
  have hread : ∀ b : ℕ, c.read b = c b := fun b => by
    rw [Counter.read, if_neg (by omega), Int.toNat_natCast]
  have hblock : ∀ b : ℕ, (acceptedIn logs kinds accept b).length =
      (streamOf kinds accept hordered hkinds).messages.countP fun l => l.block = b := by
    intro b
    rw [Stream.messages, List.countP_filter, acceptedIn, ← List.countP_eq_length_filter]
    apply List.countP_congr
    intro l _
    simp only [streamOf, decide_eq_true_eq, Bool.and_eq_true, and_comm]
  funext b
  rw [Stream.counter, SortedBy.countP_le_eq, ← hblock]
  induction b with
  | zero =>
    have hzero := hcounts 0
    rw [hread, Counter.read, if_pos (by omega)] at hzero
    rw [hzero]
    simp
  | succ b ih =>
    have hsucc := hcounts (b + 1)
    rw [hread, show ((b + 1 : ℕ) : ℤ) - 1 = (b : ℕ) by omega, hread, ih, hblock b, ← SortedBy.countP_le_eq] at hsucc
    rw [hsucc]
    simp only [Nat.lt_succ_iff]

/-- The log of a nonce is the message of that number. -/
theorem performs_iff (hc : c = (streamOf kinds accept hordered hkinds).counter) {nonce : ℕ} {l : Log} :
    Performs c logs kinds accept nonce l ↔
      0 < nonce ∧ (streamOf kinds accept hordered hkinds).messages[nonce - 1]? = some l := by
  set S := streamOf kinds accept hordered hkinds
  have hin : acceptedIn logs kinds accept l.block = S.messages.filter fun x => x.block = l.block := by
    rw [Stream.messages, List.filter_filter]
    apply List.filter_congr
    intro x _
    simp only [S, streamOf, Bool.decide_and, Bool.decide_eq_true, Bool.and_comm]
  -- within the block, the messages are numbered from where the block starts
  have hnumber := SortedBy.zipIdx_filter_eq S.messages_sorted l.block 0
  rw [Nat.zero_add] at hnumber
  have hplace : ∀ i, S.messages[i]? = some l ↔
      (S.messages.countP fun x => x.block < l.block) ≤ i ∧
        (S.messages.filter fun x => x.block = l.block)[i - S.messages.countP fun x => x.block < l.block]? = some l := by
    intro i
    have hleft : S.messages[i]? = some l ↔ (l, i) ∈ S.messages.zipIdx 0 := by
      rw [List.mem_zipIdx_iff_getElem?]
    have hright := List.mem_zipIdx_iff_le_and_getElem?_sub (x := (l, i))
      (k := S.messages.countP fun x => x.block < l.block) (l := S.messages.filter fun x => x.block = l.block)
    rw [hleft, ← hright, hnumber, List.mem_filter]
    simp
  have hread : c.read (l.block - 1) = S.messages.countP fun x => x.block < l.block := by
    rw [hc, Stream.read_pred]
  rw [Performs, hin, hread]
  constructor
  · rintro ⟨hlt, hget⟩
    refine ⟨by omega, (hplace _).mpr ⟨by omega, ?_⟩⟩
    rwa [Nat.sub_right_comm] at hget
  · rintro ⟨hpos, hget⟩
    obtain ⟨hle, hget⟩ := (hplace _).mp hget
    refine ⟨by omega, ?_⟩
    rwa [Nat.sub_right_comm]

/-! ### Every search succeeds -/

theorem firstBlockReaching_total {target high : ℕ} (h : target ≤ c high) (low : ℕ) :
    ∃ block, firstBlockReaching c target low high = .ok block := by
  unfold firstBlockReaching
  rw [if_neg (not_lt.mpr h)]
  exact ⟨_, rfl⟩

theorem nonceBlocks_total {S : Stream} {last : ℕ} (n : ℕ) {i start : ℕ} (hle : start ≤ last)
    (hreach : i + n ≤ S.counter last + 1) :
    ∃ blocks, nonceBlocks S.counter last (List.range' i n) start = .ok blocks := by
  induction n generalizing i start with
  | zero => exact ⟨[], rfl⟩
  | succ n ih =>
    obtain ⟨block, hblock⟩ := firstBlockReaching_total (show i ≤ S.counter last by omega) start
    obtain ⟨rest, hrest⟩ := ih (i := i + 1) (Stream.firstBlockReaching_ok hle hblock).2.2.1 (by omega)
    exact ⟨block :: rest, by rw [List.range'_succ, nonceBlocks, hblock, Except.bind_ok_left, hrest]; rfl⟩

theorem windows_total {S : Stream} {start last : ℕ} (hsize : 0 < rangeSize) (hle : start ≤ last)
    (hreach : high ≤ S.counter last) (hlt : low < high) :
    ∃ ws, windows S.counter low high start last rangeSize = .ok ws := by
  unfold windows
  rw [if_neg (by omega)]
  dsimp only
  split_ifs
  · exact ⟨_, rfl⟩
  · obtain ⟨blocks, hblocks⟩ := nonceBlocks_total (S := S) (high - low) (i := low + 1) hle (by omega)
    exact ⟨_, by rw [nonceRange, hblocks]; rfl⟩

/-- What a range of nonces is to be scanned to: an event for each nonce, made of the log that performed it. -/
def IsExact (c : Counter) (logs : List Log) (kinds : List Kind) (accept : Log → Bool) (low high : ℕ)
    (events : Events) : Prop :=
  events.keys = nonceRange low high ∧
    ∀ nonce, low < nonce → nonce ≤ high → ∃ l, Performs c logs kinds accept nonce l ∧
      (∀ l', Performs c logs kinds accept nonce l' → l' = l) ∧ events.get? nonce = some (decodeEvent l)

theorem isExact_numbered (hc : c = (streamOf kinds accept hordered hkinds).counter) {last : ℕ}
    (hreach : high ≤ c last) :
    IsExact c logs kinds accept low high
      (Dict.ofList (Stream.numbered ((streamOf kinds accept hordered hkinds).between low high) (low + 1))) := by
  set S := streamOf kinds accept hordered hkinds with hS
  have hreach' : high ≤ S.counter last := hc ▸ hreach
  have hlength : (S.between low high).length = high - low := Stream.length_between hreach'
  obtain ⟨hentries, hkeys⟩ := Stream.entries_numbered hlength
  refine ⟨hkeys, ?_⟩
  intro nonce hlow hhigh
  have hlen : nonce - 1 < S.messages.length := by
    have : S.counter last ≤ S.messages.length := List.countP_le_length
    omega
  have hget := List.getElem?_eq_getElem hlen
  refine ⟨S.messages[nonce - 1], (performs_iff hordered hkinds hc).mpr ⟨by omega, hget⟩, ?_, ?_⟩
  · intro l' hl'
    have hget' := ((performs_iff hordered hkinds hc).mp hl').2
    exact Option.some.inj (hget'.symm.trans hget)
  · rw [Dict.get?_eq_some_iff, hentries, Stream.numbered]
    refine List.mem_map.mpr ⟨(S.messages[nonce - 1], nonce), ?_, rfl⟩
    rw [List.mem_zipIdx_iff_le_and_getElem?_sub]
    refine ⟨by omega, ?_⟩
    rw [Stream.between, List.getElem?_drop, List.getElem?_take, if_pos (by omega), show low + (nonce - (low + 1)) =
      nonce - 1 by omega]
    exact hget

/-- The bisection finds the first block of its range at which the counter has come that far. -/
theorem firstBlockReaching_least (hordered : logs.Pairwise fun a b => a.key < b.key) (hkinds : kinds.Nodup)
    (hcounts : CountsLogs c logs kinds accept) {target first last : ℕ} (hle : first ≤ last) (h : target ≤ c last) :
    ∃ block, firstBlockReaching c target first last = .ok block ∧ IsLeast {b | first ≤ b ∧ target ≤ c b} block := by
  obtain ⟨block, hblock⟩ := firstBlockReaching_total h first
  refine ⟨block, hblock, ?_⟩
  have hc := counter_eq hordered hkinds hcounts
  rw [hc] at hblock ⊢
  obtain ⟨-, h1, -, h2, h3⟩ := Stream.firstBlockReaching_ok hle hblock
  exact ⟨⟨h1, h2⟩, fun b hb => h3 b hb.1 hb.2⟩

/-- A range of nonces that is reached within the search range has one event for each nonce and no problem, and both ways
to choose the blocks give it. -/
theorem collect_exact (hordered : logs.Pairwise fun a b => a.key < b.key) (hkinds : kinds.Nodup)
    (hcounts : CountsLogs c logs kinds accept) (hlt : low < high) (hbefore : c.read (search.1 - 1) ≤ low)
    (hreached : high ≤ c search.2) (hsize : 0 < rangeSize) :
    ∃ events start last blocks, collect c logs kinds accept low high search rangeSize = .ok (events, []) ∧
      IsExact c logs kinds accept low high events ∧
      firstBlockReaching c (low + 1) search.1 search.2 = .ok start ∧
      firstBlockReaching c high start search.2 = .ok last ∧
      nonceBlocks c last (nonceRange low high) start = .ok blocks ∧
      windowEvents c logs kinds accept low high (Stream.spanWindow start last) = (events, []) ∧
      windowEvents c logs kinds accept low high (Stream.blockWindows blocks) = (events, []) ∧
      ∀ target first final, first ≤ final → target ≤ c final → ∃ block,
        firstBlockReaching c target first final = .ok block ∧ IsLeast {b | first ≤ b ∧ target ≤ c b} block := by
  have hleast {target first final : ℕ} (hle : first ≤ final) (h : target ≤ c final) :=
    firstBlockReaching_least hordered hkinds hcounts hle h
  have hc := counter_eq hordered hkinds hcounts
  set S := streamOf kinds accept hordered hkinds with hS
  have hevents : ∀ ws, windowEvents c logs kinds accept low high ws =
      windowEvents S.counter S.logs S.kinds S.accept low high ws := by
    intro ws
    rw [windowEvents_accepted, hc]
    rfl
  -- the range of the search starts before the first message asked for
  have hsearch : ∀ l, S.messages[low]? = some l → search.1 ≤ l.block := by
    intro l hl
    rw [hc, Stream.read_pred] at hbefore
    by_contra hlt
    have hmem : S.counter l.block ≤ S.messages.countP fun x => x.block < search.1 := by
      apply List.countP_mono_left
      intro x _ hx
      simp only [decide_eq_true_eq] at hx ⊢
      omega
    have := (Stream.block_le_iff hl).mp le_rfl
    omega
  have hle : search.1 ≤ search.2 := by
    by_contra hgt
    have hmono : c search.2 ≤ c.read (search.1 - 1) := by
      rw [hc, show (search.1 : ℤ) - 1 = ((search.1 - 1 : ℕ) : ℤ) by omega, Stream.read_cast]
      exact Stream.counter_mono (by omega)
    omega
  obtain ⟨start, hstart, ⟨-, hstartReach⟩, hstartLeast⟩ := hleast hle (show low + 1 ≤ c search.2 by omega)
  have hstartle : start ≤ search.2 := hstartLeast ⟨hle, by omega⟩
  obtain ⟨last, hlast, ⟨hsl, hlastReach⟩, -⟩ := hleast hstartle hreached
  have hbegin : ∀ l, S.messages[low]? = some l → start ≤ l.block := by
    intro l hl
    apply hstartLeast
    refine ⟨hsearch l hl, ?_⟩
    rw [hc]
    exact (Stream.block_le_iff hl).mp le_rfl
  have hlastReach' : high ≤ S.counter last := hc ▸ hlastReach
  obtain ⟨blocks, hblocks⟩ := nonceBlocks_total (S := S) (high - low) (i := low + 1) hsl (by omega)
  obtain ⟨ws, hws⟩ := windows_total (S := S) hsize hsl hlastReach' hlt
  have hlength : (S.between low high).length = high - low := Stream.length_between hlastReach'
  refine ⟨_, start, last, blocks, ?_, isExact_numbered hordered hkinds hc hlastReach, hstart, hlast, ?_, ?_, ?_, ?_⟩
  · rw [collect_eq, if_neg (by omega), hstart, Except.bind_ok_left, hlast, Except.bind_ok_left, hc, hws, ← hc]
    exact congrArg Except.ok ((hevents ws).trans
      (Stream.windowEvents_ok (Stream.windows_ok hsl hbegin hlastReach' hws) hlength))
  · rw [hc]
    exact hblocks
  · rw [hevents]
    exact Stream.windowEvents_ok (Stream.reads_spanWindow hbegin hlastReach') hlength
  · rw [hevents]
    exact Stream.windowEvents_ok (Stream.reads_blockWindows hsl hbegin hblocks) hlength
  · intro target first final h1 h2
    exact hleast h1 h2

/-- The first message of a path, received in block one. -/
def firstReceive : Log where
  block := 1
  logIndex := 0
  kind := .receive
  tx := "0x01"
  account := 7
  amount := 5
  source := some 3
  dest := none
  sourceChainId := 116
  path := "0x"

theorem collect_exact_one :
    ∃ events, collect (fun b => min b 1) [firstReceive] [.receive] (fun _ => true) 0 1 (0, 2) 5 = .ok (events, []) ∧
      events.get? 1 = some (decodeEvent firstReceive) := by
  have hcounts : CountsLogs (fun b => min b 1) [firstReceive] [.receive] fun _ => true := by
    intro block
    rcases block with _ | _ | block
    · decide
    · decide
    · have hnone : acceptedIn [firstReceive] [.receive] (fun _ => true) (block + 2) = [] := by
        simp [acceptedIn, firstReceive]
      rw [hnone, List.length_nil, Counter.read, Counter.read, if_neg (by omega), if_neg (by omega)]
      omega
  obtain ⟨events, _, _, _, hcollect, ⟨-, hexact⟩, -⟩ := collect_exact (List.pairwise_singleton _ _)
    (List.nodup_singleton _) hcounts (show 0 < 1 by decide) (show Counter.read _ (((0, 2) : ℕ × ℕ).1 - 1) ≤ 0 by decide)
    (by decide) (show 0 < 5 by decide)
  obtain ⟨l, -, honly, hget⟩ := hexact 1 (by decide) le_rfl
  refine ⟨events, hcollect, ?_⟩
  rw [honly firstReceive ⟨by decide, by decide⟩]
  exact hget

end Exact

end HarmonyMigration.Messages
