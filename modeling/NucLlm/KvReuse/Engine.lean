import NucLlm.KvReuse.Prefix

/-!
# The patched engine

The state that one conversation leaves behind: the recurrent state of the
DeltaNet layers, the attention rows in head-major buffers, the record of fed
ids and two snapshots.  The arithmetic of the layers is a parameter; a chunk
is fed token by token.
-/

namespace NucLlm.KvReuse

open Buffer

/-- The geometry of a network and its forward pass on one token, from the
recurrent state and the rows of the positions before it. -/
structure Network where
  Plane : Type
  Cell : Type
  Recurrent : Type
  Logits : Type
  heads : ℕ
  width : ℕ
  zero : Recurrent
  next : Recurrent → List (Plane → Fin heads → Fin width → Cell) → Token →
    Recurrent × (Plane → Fin heads → Fin width → Cell) × Logits

/-- The rows of one position: a vector for each plane (the K or the V buffer
of an attention layer) and each head. -/
abbrev Network.Row (net : Network) : Type :=
  net.Plane → Fin net.heads → Fin net.width → net.Cell

/-- `Q36Snap`: its buffers are allocated when it is first taken. -/
structure Snap (net : Network) where
  pos : ℕ
  dn : Option net.Recurrent

/-- The fields of `Model` that serving reads and writes. -/
structure Model (net : Network) where
  dn : net.Recurrent
  kv : net.Plane → ℕ → net.Cell
  allocated : Bool
  kvLen : ℕ
  maxT : ℕ
  kvCap : ℕ
  kvp : KvPrefix
  sys : Snap net
  promptEnd : Snap net

/-- What the environment of the process fixes. -/
structure Config where
  encode : List UInt8 → List Token
  enabled : Bool
  prefixMin : ℤ
  maxCtx : ℕ
  eosIds : List Token

/-- What the allocator does during one request: whether the record's and the
snapshots' allocations succeed, and what fresh buffers hold. -/
structure Heap (net : Network) where
  record : Bool
  sys : Bool
  promptEnd : Bool
  fresh : net.Plane → ℕ → net.Cell

structure Request (net : Network) where
  payload : List UInt8
  prefixBytes : ℕ
  stableBytes : ℕ
  maxTok : ℕ
  sample : ℕ → net.Logits → Token
  heap : Heap net

section Engine

variable {net : Network}

/-- The state of a process that has served nothing, over whatever memory. -/
def Model.init (kv : net.Plane → ℕ → net.Cell) : Model net where
  dn := net.zero
  kv := kv
  allocated := false
  kvLen := 0
  maxT := 0
  kvCap := 0
  kvp := .empty
  sys := ⟨0, none⟩
  promptEnd := ⟨0, none⟩

/-! ## Rows -/

/-- The row of a position, at the stride of the allocation. -/
def readRow (kv : net.Plane → ℕ → net.Cell) (cap pos : ℕ) : net.Row := fun p h d ↦
  kv p (h * (cap * net.width) + pos * net.width + d)

def rowsUpTo (kv : net.Plane → ℕ → net.Cell) (cap n : ℕ) : List net.Row :=
  (List.range n).map (readRow kv cap)

def writeRow (kv : net.Plane → ℕ → net.Cell) (cap pos : ℕ) (row : net.Row) :
    net.Plane → ℕ → net.Cell := fun p ↦
  copyBlocks net.heads (cap * net.width) (pos * net.width) (row p) (kv p)

/-- The kept rows of every head, copied from the old stride to the new one. -/
def regrow (old fresh : net.Plane → ℕ → net.Cell) (oldCap cap keep : ℕ) :
    net.Plane → ℕ → net.Cell := fun p ↦
  copyBlocks net.heads (cap * net.width) 0
    (fun h (i : Fin (keep * net.width)) ↦ old p (h * (oldCap * net.width) + i)) (fresh p)

/-- The positions `ensure_kv` copies. -/
def Model.keep (m : Model net) : ℕ :=
  if m.allocated ∧ 0 < m.kvp.len ∧ m.kvp.len ≤ m.kvCap then m.kvp.len else 0

/-- `ensure_kv`. -/
def ensureKv (heap : Heap net) (m : Model net) : Model net :=
  if m.maxT ≤ m.kvCap ∧ m.allocated = true then m
  else
    { m with
      kv := if 0 < m.keep then regrow m.kv heap.fresh m.kvCap m.maxT m.keep else heap.fresh
      allocated := true
      kvCap := m.maxT
      kvp := m.kvp.growOrClear heap.record m.maxT m.keep }

/-! ## Snapshots and the decision -/

/-- `q36_snap_take`, the allocation of whose buffers may fail. -/
def snapTake (allocated : Bool) (m : Model net) (s : Snap net) (pos : ℕ) : Snap net :=
  if pos = 0 ∨ m.kvLen ≠ pos ∨ m.kvp.len < pos ∨ m.kvp.tainted = true then { s with pos := 0 }
  else if s.dn.isNone ∧ allocated = false then { s with pos := 0 }
  else ⟨pos, some m.dn⟩

/-- `q36_snap_restore`. -/
def snapRestore (m : Model net) (s : Snap net) : Model net :=
  match s.dn with
  | none => m
  | some dn => { m with dn := dn }

/-- `model_state_reset`. -/
def modelStateReset (m : Model net) : Model net :=
  { m with kvp := m.kvp.clear, dn := net.zero, kvLen := 0,
           sys := { m.sys with pos := 0 }, promptEnd := { m.promptEnd with pos := 0 } }

def betterSnap (lcp : ℕ) (best : Option (Snap net)) (s : Snap net) : Option (Snap net) :=
  if 0 < s.pos ∧ s.pos ≤ lcp ∧ best.all (·.pos < s.pos) then some s else best

/-- The loop over the snapshots: the deepest one at or before `lcp`, the
earlier of two at the same position. -/
def bestSnap (lcp : ℕ) (snaps : List (Snap net)) : Option (Snap net) :=
  snaps.foldl (betterSnap lcp) none

/-- Restore a snapshot; the record now ends where the state does. -/
def rewindTo (m : Model net) (s : Snap net) : Model net :=
  let m := snapRestore m s
  { m with kvp := { m.kvp with len := s.pos } }

/-- The state to start from, its position and the common prefix, before the
cache is sized. -/
def decideReuse (cfg : Config) (m : Model net) (ids : List Token) : Model net × ℕ × ℕ :=
  if !cfg.enabled then (m, 0, 0)
  else
    let reuse := m.kvp.reuse ids
    if reuse ≠ 0 then (m, reuse, 0)
    else
      let lcp := m.kvp.lcp ids
      match bestSnap lcp [m.sys, m.promptEnd] with
      | none => (m, 0, lcp)
      | some best => (rewindTo m best, best.pos, lcp)

/-- Snapshots above the kept prefix describe positions about to be overwritten. -/
def Snap.dropAbove (reuse : ℕ) (s : Snap net) : Snap net :=
  if reuse < s.pos then { s with pos := 0 } else s

/-- `if (!reuse) model_state_reset(m)`. -/
def resetUnless (reuse : ℕ) (m : Model net) : Model net :=
  if reuse = 0 then modelStateReset m else m

/-- The last lines of `prepare_request_state`. -/
def settle (m : Model net) (reuse : ℕ) : Model net :=
  { m with kvLen := reuse, sys := m.sys.dropAbove reuse,
           promptEnd := m.promptEnd.dropAbove reuse }

/-- `prepare_request_state`: the state, the position prefill starts at and the
common prefix. -/
def prepareRequestState (cfg : Config) (heap : Heap net) (m : Model net) (ids : List Token)
    (maxT : ℕ) : Model net × ℕ × ℕ :=
  let (m, reuse, lcp) := decideReuse cfg m ids
  let m := ensureKv heap { resetUnless reuse m with maxT := maxT }
  if reuse ≠ 0 ∧ m.kvp.len ≠ reuse then (settle (modelStateReset m) 0, 0, lcp)
  else (settle m reuse, reuse, lcp)

/-! ## Feeding tokens -/

/-- One token at its position: the attention layers see the rows before it. -/
def feedToken (m : Model net) (pos : ℕ) (tok : Token) : Model net × net.Logits :=
  let (dn, row, logits) := net.next m.dn (rowsUpTo m.kv m.kvCap pos) tok
  ({ m with dn := dn, kv := writeRow m.kv m.kvCap pos row }, logits)

def feedChunk : Model net → ℕ → List Token → Option net.Logits → Model net × Option net.Logits
  | m, _, [], logits => (m, logits)
  | m, pos, tok :: toks, _ =>
      let (m, logits) := feedToken m pos tok
      feedChunk m (pos + 1) toks (some logits)

/-- `step`: the chunk is fed, then recorded. -/
def step (m : Model net) (ids : List Token) (pos : ℕ) : Model net × Option net.Logits :=
  let (m, logits) := feedChunk m pos ids none
  ({ m with kvLen := pos + ids.length, kvp := m.kvp.record ids pos }, logits)

/-! ## Serving -/

def Config.minCut (cfg : Config) : ℕ := max 8 cfg.prefixMin.toNat

/-- `serve_hint_tokens`: the tokens of the hinted bytes, if they are a proper
prefix of the prompt's. -/
def serveHintTokens (cfg : Config) (payload : List UInt8) (nbytes : ℕ) (ids : List Token) : ℕ :=
  if nbytes = 0 ∨ payload.length ≤ nbytes then 0
  else
    let pids := cfg.encode (payload.take nbytes)
    if 0 < pids.length ∧ pids.length < ids.length ∧ pids = ids.take pids.length then pids.length
    else 0

/-- The two cuts from the accepted hints, or the common prefix. -/
def planCuts (minCut : ℕ) (sysPos np reuse lcp sysHint stableHint : ℕ) : ℕ × ℕ :=
  let cut := if sysHint < minCut ∨ sysHint ≤ reuse then 0 else sysHint
  let cut := if cut = 0 ∧ reuse = 0 ∧ minCut ≤ lcp ∧ lcp < np then lcp else cut
  let cut := if 0 < sysPos ∧ sysPos = cut then 0 else cut
  (cut, if stableHint ≤ reuse ∨ stableHint ≤ cut then 0 else stableHint)

/-- `ids[a..b)`. -/
def slice (ids : List Token) (a b : ℕ) : List Token := (ids.take b).drop a

/-- The prefill so far: the state and how far it got, the chunks fed and the
states passed through. -/
structure Prefill (net : Network) where
  model : Model net
  upTo : ℕ
  chunks : List (List Token)
  visited : List (Model net)

/-- Prefill up to a cut that lies ahead, and let `take` take the snapshot there. -/
def prefillTo (ids : List Token) (cut : ℕ) (take : Model net → Model net) (p : Prefill net) :
    Prefill net :=
  if p.upTo < cut then
    let chunk := slice ids p.upTo cut
    let fed := (step p.model chunk p.upTo).1
    ⟨take fed, cut, p.chunks ++ [chunk], p.visited ++ [fed, take fed]⟩
  else p

/-- The decode loop from turn `s` on, with the turns left: the state, the
tokens fed and the states passed through. -/
def decode (cfg : Config) (sample : ℕ → net.Logits → Token) (np : ℕ) :
    ℕ → ℕ → Model net → net.Logits → Model net × List Token × List (Model net)
  | 0, _, m, _ => (m, [], [])
  | turns + 1, s, m, logits =>
      let tk := sample s logits
      if tk ∈ cfg.eosIds then (m, [], [])
      else
        match step m [tk] (np + s) with
        | (m, none) => (m, [tk], [m])
        | (m, some logits) =>
            let (final, reply, visited) := decode cfg sample np turns (s + 1) m logits
            (final, tk :: reply, m :: visited)

structure Served (net : Network) where
  ids : List Token
  lcp : ℕ
  reuse : ℕ
  cut : ℕ
  peCut : ℕ
  prepared : Model net
  chunks : List (List Token)
  reply : List Token
  visited : List (Model net)
  final : Model net

def takeSys (allocated : Bool) (pos : ℕ) (m : Model net) : Model net :=
  { m with sys := snapTake allocated m m.sys pos }

def takePromptEnd (allocated : Bool) (pos : ℕ) (m : Model net) : Model net :=
  { m with promptEnd := snapTake allocated m m.promptEnd pos }

/-- The cuts of a request that `prepare_request_state` has answered. -/
def requestCuts (cfg : Config) (q : Request net) (ids : List Token) (sysPos reuse lcp : ℕ) :
    ℕ × ℕ :=
  if cfg.enabled then
    planCuts cfg.minCut sysPos ids.length reuse lcp
      (serveHintTokens cfg q.payload q.prefixBytes ids)
      (serveHintTokens cfg q.payload q.stableBytes ids)
  else (0, 0)

/-- The chunks up to the two cuts and the rest of the prompt; without a stable
cut the snapshot is taken at its end. -/
def prefill (cfg : Config) (heap : Heap net) (ids : List Token) (prepared : Model net)
    (reuse cut peCut : ℕ) : Prefill net × Option net.Logits :=
  let p := prefillTo ids cut (takeSys heap.sys cut) ⟨prepared, reuse, [], [prepared]⟩
  let p := prefillTo ids peCut (takePromptEnd heap.promptEnd peCut) p
  let last := slice ids p.upTo ids.length
  let (m, logits) := step p.model last p.upTo
  let taken := if peCut = 0 ∧ cfg.enabled then takePromptEnd heap.promptEnd ids.length m else m
  (⟨taken, ids.length, p.chunks ++ [last], p.visited ++ [m, taken]⟩, logits)

/-- `serve_one`; nothing is served when the context would be exceeded. -/
def serveOne (cfg : Config) (m : Model net) (q : Request net) : Option (Served net) :=
  let ids := cfg.encode q.payload
  if ids.length < 1 ∨ cfg.maxCtx < ids.length + q.maxTok then none
  else
    let (prepared, reuse, lcp) :=
      prepareRequestState cfg q.heap m ids (ids.length + q.maxTok)
    let (cut, peCut) := requestCuts cfg q ids prepared.sys.pos reuse lcp
    match prefill cfg q.heap ids prepared reuse cut peCut with
    | (_, none) => none
    | (p, some logits) =>
        let (final, reply, decoded) :=
          decode cfg q.sample ids.length q.maxTok 0 p.model logits
        some ⟨ids, lcp, reuse, cut, peCut, prepared, p.chunks, reply, p.visited ++ decoded, final⟩

/-- The requests of a process, in order; one that is refused changes nothing. -/
def serveAll (cfg : Config) : Model net → List (Request net) → List (Option (Served net))
  | _, [] => []
  | m, q :: qs =>
      match serveOne cfg m q with
      | none => none :: serveAll cfg m qs
      | some served => some served :: serveAll cfg served.final qs

end Engine

end NucLlm.KvReuse
