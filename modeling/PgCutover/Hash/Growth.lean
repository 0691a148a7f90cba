import PgCutover.Hash.Address

/-!
# Growth of a hash index

Buckets are split one at a time, in order; overflow pages are taken from the free ones of the bitmap
pages or added at the end of the index, together with a new bitmap page when the last one is full.
-/

namespace PgCutover.Hash

open Function

/-! ### The meta page -/

/-- What the meta page says about the places of pages. -/
structure HashMeta where
  maxbucket : ℕ
  highmask : ℕ
  lowmask : ℕ
  ovflpoint : ℕ
  firstfree : ℕ
  nmaps : ℕ
  bmshift : ℕ
  spares : ℕ → ℕ
  mapp : ℕ → ℕ

namespace HashMeta

/-- The block of a bucket, by the spare pages of the meta page. -/
def bucketToBlkno (m : HashMeta) (bucket : ℕ) : ℕ := Hash.bucketToBlkno m.spares bucket

/-- The block of an overflow page, by the spare pages of the meta page. -/
def bitnoToBlkno (m : HashMeta) (ovflbitnum : ℕ) : ℕ :=
  Hash.bitnoToBlkno m.spares m.ovflpoint ovflbitnum

/-- The bit of an overflow page, by the spare pages of the meta page. -/
def ovflblknoToBitno (m : HashMeta) (ovflblkno : ℕ) : Except String ℕ :=
  Hash.ovflblknoToBitno m.spares m.ovflpoint ovflblkno

/-- `_hash_hashkey2bucket`. -/
def hashkey2bucket (m : HashMeta) (hashkey : ℕ) : ℕ :=
  if hashkey &&& m.highmask > m.maxbucket then (hashkey &&& m.highmask) &&& m.lowmask
  else hashkey &&& m.highmask

/-- The number of overflow and bitmap pages. -/
def sparePages (m : HashMeta) : ℕ := m.spares m.ovflpoint

/-- `BMPGSZ_BIT`: the number of bits of a bitmap page. -/
def bmpgszBit (m : HashMeta) : ℕ := 2 ^ m.bmshift

end HashMeta

/-- `HASH_MAX_BITMAPS`. -/
def hashMaxBitmaps (blcksz : ℕ) : ℕ := min (blcksz / 8) 1024

/-- `HashGetMaxBitmapSize`: a page less its header and its special space. -/
def hashGetMaxBitmapSize (blcksz : ℕ) : ℕ := blcksz - 24 - 16

/-- The initial number of buckets for the estimate `dnumbuckets`. -/
def initialBuckets (dnumbuckets : ℚ) : ℕ :=
  if dnumbuckets ≤ 2 then 2
  else if dnumbuckets ≥ 0x40000000 then 0x40000000
  else totalBuckets (spareIndex dnumbuckets.floor.toNat)

/-- `_hash_init_metabuffer`, and the first bitmap page of `_hash_init`. -/
def initMetabuffer (blcksz : ℕ) (dnumbuckets : ℚ) : HashMeta :=
  let numBuckets := initialBuckets dnumbuckets
  let spareIndex := spareIndex numBuckets
  let highmask := nextPower2 (numBuckets + 1) - 1
  { maxbucket := numBuckets - 1
    highmask := highmask
    lowmask := highmask >>> 1
    ovflpoint := spareIndex
    firstfree := 0
    nmaps := 1
    bmshift := leftmostOnePos (hashGetMaxBitmapSize blcksz) + 3
    spares := update (fun _ => 0) spareIndex 1
    mapp := update (fun _ => 0) 0 (numBuckets + 1) }

/-! ### Splits -/

/-- What a split finds outside of the meta page. -/
structure ExpandEnv where
  /-- There are more tuples than the fill factor asks for. -/
  needed : Bool
  /-- The old bucket is locked for cleanup and no earlier split of it is pending. -/
  oldLocked : Bool
  /-- The new bucket's page is locked for cleanup. -/
  newLocked : Bool

/-- `_hash_alloc_buckets`: is the last block still a block number? -/
def allocBuckets (firstblock nblocks : ℕ) : Bool :=
  let lastblock := (firstblock + nblocks - 1) % 2 ^ 32
  !(lastblock < firstblock || lastblock = 2 ^ 32 - 1)

namespace HashMeta

/-- The bucket that is split next. -/
def oldBucket (m : HashMeta) : ℕ := (m.maxbucket + 1) &&& m.lowmask

/-- The update of the meta page by a split. -/
def addBucket (m : HashMeta) : HashMeta :=
  let newBucket := m.maxbucket + 1
  let spareNdx := spareIndex (newBucket + 1)
  { m with
    maxbucket := newBucket
    -- the masks change when a new doubling starts
    lowmask := if newBucket > m.highmask then m.highmask else m.lowmask
    highmask := if newBucket > m.highmask then newBucket ||| m.highmask else m.highmask
    spares :=
      if spareNdx > m.ovflpoint then update m.spares spareNdx (m.spares m.ovflpoint)
      else m.spares
    ovflpoint := if spareNdx > m.ovflpoint then spareNdx else m.ovflpoint }

/-- `_hash_expandtable`, as far as it is about the meta page. -/
def expandTable (env : ExpandEnv) (m : HashMeta) : HashMeta :=
  let newBucket := m.maxbucket + 1
  let startNblkno := m.bucketToBlkno newBucket
  let spareNdx := spareIndex (newBucket + 1)
  if !env.needed then m
  else if m.maxbucket ≥ 0x7FFFFFFE then m
  else if !env.oldLocked then m
  else if spareNdx > m.ovflpoint ∧
      allocBuckets startNblkno (totalBuckets spareNdx - newBucket) = false then m
  else if !env.newLocked then m
  else m.addBucket

end HashMeta

/-! ### Overflow pages -/

/-- The meta page, the bits of all bitmap pages and the overflow pages of the bucket chains. -/
structure HashIndex where
  metap : HashMeta
  inUse : ℕ → Bool
  overflow : List ℕ

namespace HashIndex

/-- The index that `_hash_init` creates. -/
def init (blcksz : ℕ) (dnumbuckets : ℚ) : HashIndex :=
  ⟨initMetabuffer blcksz dnumbuckets, fun _ => true, []⟩

/-- The search of the bitmap pages, from the word of the first bit that may be free to the last
page that exists. -/
def findFree (s : HashIndex) : Option ℕ :=
  let firstPage := s.metap.firstfree >>> s.metap.bmshift
  let start := (firstPage <<< s.metap.bmshift) +
    s.metap.firstfree % s.metap.bmpgszBit / 32 * 32
  (List.range' start (s.metap.sparePages - start)).find? fun bit => !s.inUse bit

/-- The metadata after pages are added at the end; a new bitmap page comes first. -/
def extend (s : HashIndex) (newmap : Bool) : HashIndex :=
  let m := s.metap
  let splitnum := m.ovflpoint
  let mapBit := m.spares splitnum
  let bit := if newmap then m.spares splitnum + 1 else m.spares splitnum
  { metap :=
      { m with
        spares := update m.spares splitnum (bit + 1)
        mapp := if newmap then update m.mapp m.nmaps (m.bitnoToBlkno mapBit) else m.mapp
        nmaps := if newmap then m.nmaps + 1 else m.nmaps
        firstfree := bit + 1 }
    -- all bits of a new bitmap page are set
    inUse := fun b => s.inUse b || (newmap && b / m.bmpgszBit == m.nmaps)
    overflow := m.bitnoToBlkno bit :: s.overflow }

/-- `_hash_addovflpage`, as far as it is about the meta page and the bitmaps. -/
def addOvflPage (blcksz : ℕ) (relname : String) (s : HashIndex) : Except String HashIndex :=
  match s.findFree with
  | some bit =>
    .ok { metap := { s.metap with firstfree := bit + 1 }
          inUse := update s.inUse bit true
          overflow := s.metap.bitnoToBlkno bit :: s.overflow }
  | none =>
    let lastBit := (s.metap.sparePages - 1) % s.metap.bmpgszBit
    if lastBit = s.metap.bmpgszBit - 1 then
      if s.metap.nmaps ≥ hashMaxBitmaps blcksz then
        .error s!"out of overflow pages in hash index \"{relname}\""
      else .ok (s.extend true)
    else .ok (s.extend false)

/-- `_hash_freeovflpage` for the overflow page at a block. -/
def freeOvflPage (ovflblkno : ℕ) (s : HashIndex) : Except String HashIndex := do
  let ovflbitno ← s.metap.ovflblknoToBitno ovflblkno
  if ovflbitno >>> s.metap.bmshift ≥ s.metap.nmaps then
    throw s!"invalid overflow bit number {ovflbitno}"
  return { metap := { s.metap with firstfree := min ovflbitno s.metap.firstfree }
           inUse := update s.inUse ovflbitno false
           overflow := s.overflow.erase ovflblkno }

/-- The operations that move the boundaries of the index. -/
inductive Op
  | expand (env : ExpandEnv)
  | addOvfl
  | freeOvfl (ovflblkno : ℕ)

/-- One operation; an error leaves the index as it is, and only overflow pages are freed. -/
def step (blcksz : ℕ) (relname : String) (s : HashIndex) : Op → HashIndex
  | .expand env => { s with metap := s.metap.expandTable env }
  | .addOvfl =>
    match s.addOvflPage blcksz relname with
    | .ok s' => s'
    | .error _ => s
  | .freeOvfl ovflblkno =>
    if ovflblkno ∈ s.overflow then
      match s.freeOvflPage ovflblkno with
      | .ok s' => s'
      | .error _ => s
    else s

end HashIndex

end PgCutover.Hash
