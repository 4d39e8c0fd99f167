import NucLlm.Lib.Lists
import NucLlm.Whence.Why

/-!
# Full renderings

A full rendering prints an outline of the value: which lists and records are
opened, which stay shut at the depth, where the nodes run out, and of which
misses the reasons are printed.  What the rendering reports is read off the
outline.
-/

namespace NucLlm.Whence

open NucLlm.Lists

mutual

/-- What is printed of a value. -/
inductive Outline where
  | plain (text : String)
  | reasons (v : Node)
  /-- A list or a record at the depth, and whether something is in it. -/
  | shut (text : String) (hidden : Bool)
  | opened (opening closing : String) (items : OutlineItems)
  | guess (head : String) (inner : Outline)
  | guessCut (head : String)

inductive OutlineItems where
  | done
  /-- The nodes ran out. -/
  | cut
  | more (key : String) (item : Outline) (rest : OutlineItems)

end

def OutlineItems.isCut : OutlineItems → Bool
  | .done => false
  | .cut => true
  | .more _ _ rest => rest.isCut

/-- How the reasons of a miss are printed inside a value. -/
def missText (reasons : List String) : String :=
  "miss " ++ quoteUpTo none ("; ".intercalate reasons)

mutual

def Outline.text : Outline → String
  | .plain text => text
  | .reasons v => missText v.value.reasons
  | .shut text _ => text
  | .opened opening closing items => opening ++ commaSep items.texts items.isCut ++ closing
  | .guess head inner => head ++ inner.text
  | .guessCut head => head ++ "…"

def OutlineItems.texts : OutlineItems → List String
  | .done | .cut => []
  | .more key item rest => (key ++ item.text) :: rest.texts

end

mutual

/-- The misses whose reasons are printed, in order. -/
def Outline.named : Outline → List Node
  | .reasons v => [v]
  | .opened _ _ items => items.named
  | .guess _ inner => inner.named
  | .plain _ | .shut _ _ | .guessCut _ => []

def OutlineItems.named : OutlineItems → List Node
  | .done | .cut => []
  | .more _ item rest => item.named ++ rest.named

end

mutual

/-- The number of nodes printed inside a value. -/
def Outline.nodes : Outline → ℕ
  | .opened _ _ items => items.nodes
  | .guess _ inner => inner.nodes + 1
  | .plain _ | .reasons _ | .shut _ _ | .guessCut _ => 0

def OutlineItems.nodes : OutlineItems → ℕ
  | .done | .cut => 0
  | .more _ item rest => item.nodes + 1 + rest.nodes

end

mutual

/-- How many lists, records and guesses are around what is printed deepest inside a value. -/
def Outline.nesting : Outline → ℕ
  | .opened _ _ items => items.nesting
  | .guess _ inner => inner.nesting + 1
  | .plain _ | .reasons _ | .shut _ _ | .guessCut _ => 0

def OutlineItems.nesting : OutlineItems → ℕ
  | .done | .cut => 0
  | .more _ item rest => max (item.nesting + 1) rest.nesting

end

mutual

/-- Something is not printed because of the depth. -/
def Outline.depthStopped : Outline → Bool
  | .shut _ hidden => hidden
  | .opened _ _ items => items.depthStopped
  | .guess _ inner => inner.depthStopped
  | .plain _ | .reasons _ | .guessCut _ => false

def OutlineItems.depthStopped : OutlineItems → Bool
  | .done | .cut => false
  | .more _ item rest => item.depthStopped || rest.depthStopped

end

mutual

/-- Something is not printed because the nodes ran out. -/
def Outline.nodeStopped : Outline → Bool
  | .guessCut _ => true
  | .opened _ _ items => items.nodeStopped
  | .guess _ inner => inner.nodeStopped
  | .plain _ | .reasons _ | .shut _ _ => false

def OutlineItems.nodeStopped : OutlineItems → Bool
  | .done => false
  | .cut => true
  | .more _ item rest => item.nodeStopped || rest.nodeStopped

end

mutual

/-- No list and no record is open at the depth or below, where so many are around the value. -/
def Outline.Within (cap : ℕ) : ℕ → Outline → Prop
  | nest, .opened _ _ items => nest < cap ∧ items.Within cap (nest + 1)
  | nest, .guess _ inner => inner.Within cap (nest + 1)
  | _, .plain _ | _, .reasons _ | _, .shut _ _ | _, .guessCut _ => True

def OutlineItems.Within (cap : ℕ) : ℕ → OutlineItems → Prop
  | _, .done | _, .cut => True
  | nest, .more _ item rest => item.Within cap nest ∧ rest.Within cap nest

end

section

variable (F : FloatOps)

mutual

/-- The outline of the payload of a node with a depth and so many nodes left, and what is left
behind it. -/
def Payload.outline (cap : ℕ) (v : Node) (nest : ℕ) : Payload → ℕ → Outline × ℕ
  | .list items, left =>
      if cap ≤ nest then (.shut (if items.isEmpty then "[]" else "[…]") (!items.isEmpty), left)
      else
        let (items, left) := outlineItems cap (nest + 1) items left
        (.opened "[" "]" items, left)
  | .record fields, left =>
      if cap ≤ nest then
        (.shut (if fields.isEmpty then "@\x7b\x7d" else "@\x7b…\x7d") (!fields.isEmpty), left)
      else
        let (items, left) := outlineFields cap (nest + 1) fields left
        (.opened "@\x7b" "\x7d" items, left)
  | .guess _ confidence sources, 0 => (.guessCut (guessHead F confidence sources), 0)
  | .guess node confidence sources, left + 1 =>
      let (inner, left) := node.outline cap (nest + 1) left
      (.guess (guessHead F confidence sources) inner, left)
  | .miss _, left => (.reasons v, left)
  | p, left => (.plain (p.render F none nest), left)

def Node.outline (cap nest : ℕ) : Node → ℕ → Outline × ℕ
  | .mk id op detail line inputs count value, left =>
      value.outline cap (.mk id op detail line inputs count value) nest left

def outlineItems (cap nest : ℕ) : List Node → ℕ → OutlineItems × ℕ
  | [], left => (.done, left)
  | _ :: _, 0 => (.cut, 0)
  | v :: vs, left + 1 =>
      let (item, left) := v.outline cap nest left
      let (rest, left) := outlineItems cap nest vs left
      (.more "" item rest, left)

def outlineFields (cap nest : ℕ) : List (String × Node) → ℕ → OutlineItems × ℕ
  | [], left => (.done, left)
  | _ :: _, 0 => (.cut, 0)
  | (key, v) :: fields, left + 1 =>
      let (item, left) := v.outline cap nest left
      let (rest, left) := outlineFields cap nest fields left
      (.more s!"{key}: " item rest, left)

end

mutual

/-- The outline without a bound. -/
def Payload.wholeOutline (v : Node) : Payload → Outline
  | .list items => .opened "[" "]" (wholeItems items)
  | .record fields => .opened "@\x7b" "\x7d" (wholeFields fields)
  | .guess node confidence sources => .guess (guessHead F confidence sources) node.wholeOutline
  | .miss _ => .reasons v
  | p => .plain (p.render F none 0)

def Node.wholeOutline : Node → Outline
  | .mk id op detail line inputs count value =>
      value.wholeOutline (.mk id op detail line inputs count value)

def wholeItems : List Node → OutlineItems
  | [] => .done
  | v :: vs => .more "" v.wholeOutline (wholeItems vs)

def wholeFields : List (String × Node) → OutlineItems
  | [] => .done
  | (key, v) :: fields => .more s!"{key}: " v.wholeOutline (wholeFields fields)

end

/-! ## The rendering prints the outline -/

namespace ShowCtx

def addMiss (misses : List Node) (v : Node) : List Node :=
  if misses.any (·.id = v.id) then misses else misses ++ [v]

/-- The state behind an outline that prints these misses. -/
def note (ctx : ShowCtx) (named : List Node) (depth nodes : Bool) (left : ℕ) : ShowCtx where
  cap := ctx.cap
  left := left
  misses := named.foldl addMiss ctx.misses
  depthStopped := ctx.depthStopped || depth
  nodeStopped := ctx.nodeStopped || nodes

theorem note_nothing (ctx : ShowCtx) : ctx.note [] false false ctx.left = ctx := by
  simp [note]

theorem note_note (ctx : ShowCtx) (named named' : List Node) (depth depth' nodes nodes' : Bool)
    (left left' : ℕ) :
    (ctx.note named depth nodes left).note named' depth' nodes' left' =
      ctx.note (named ++ named') (depth || depth') (nodes || nodes') left' := by
  simp [note, Bool.or_assoc]

theorem see_of_not_miss (ctx : ShowCtx) {v : Node} (h : v.isMiss = false) : ctx.see v = ctx := by
  simp [see, h]

theorem see_of_miss (ctx : ShowCtx) {v : Node} (h : v.isMiss = true) :
    ctx.see v = ctx.note [v] false false ctx.left := by
  by_cases hseen : ctx.misses.any (·.id = v.id) = true
  · simp [see, note, addMiss, h, hseen]
  · simp [see, note, addMiss, h, hseen]

end ShowCtx

mutual

theorem renderFull_eq (p : Payload) : ∀ (v : Node) (nest : ℕ) (ctx : ShowCtx), p.isMiss = false →
    p.renderFull F nest ctx =
      ((p.outline F ctx.cap v nest ctx.left).1.text,
        ctx.note (p.outline F ctx.cap v nest ctx.left).1.named
          (p.outline F ctx.cap v nest ctx.left).1.depthStopped
          (p.outline F ctx.cap v nest ctx.left).1.nodeStopped
          (p.outline F ctx.cap v nest ctx.left).2) := by
  intro v nest ctx hmiss
  match p with
  | .list items =>
      rw [Payload.renderFull, Payload.outline]
      split
      · simp [Outline.text, Outline.named, Outline.depthStopped, Outline.nodeStopped,
          ShowCtx.stopDepth, ShowCtx.note]
      · rw [fullItems_eq items (nest + 1) ctx]
        rfl
  | .record fields =>
      rw [Payload.renderFull, Payload.outline]
      split
      · simp [Outline.text, Outline.named, Outline.depthStopped, Outline.nodeStopped,
          ShowCtx.stopDepth, ShowCtx.note]
      · rw [fullFields_eq fields (nest + 1) ctx]
        rfl
  | .guess node confidence sources =>
      obtain ⟨cap, left, misses, depth, nodes⟩ := ctx
      cases left with
      | zero =>
          simp [Payload.renderFull, Payload.outline, ShowCtx.spend, ShowCtx.stopNodes, Outline.text,
            Outline.named, Outline.depthStopped, Outline.nodeStopped, ShowCtx.note]
      | succ left =>
          have hnode := fullIn_eq node (nest + 1) ⟨cap, left, misses, depth, nodes⟩
          simp only [Payload.renderFull, ShowCtx.spend, Nat.add_one_ne_zero, if_false,
            Nat.add_sub_cancel, hnode]
          rfl
  | .bool b => simp [Payload.renderFull, Payload.outline, Outline.text, Outline.named,
      Outline.depthStopped, Outline.nodeStopped, ShowCtx.note_nothing]
  | .num n => simp [Payload.renderFull, Payload.outline, Outline.text, Outline.named,
      Outline.depthStopped, Outline.nodeStopped, ShowCtx.note_nothing]
  | .str s => simp [Payload.renderFull, Payload.outline, Outline.text, Outline.named,
      Outline.depthStopped, Outline.nodeStopped, ShowCtx.note_nothing]
  | .closure c => simp [Payload.renderFull, Payload.outline, Outline.text, Outline.named,
      Outline.depthStopped, Outline.nodeStopped, ShowCtx.note_nothing]
  | .builtin name => simp [Payload.renderFull, Payload.outline, Outline.text, Outline.named,
      Outline.depthStopped, Outline.nodeStopped, ShowCtx.note_nothing]
  | .explanation root => simp [Payload.renderFull, Payload.outline, Outline.text, Outline.named,
      Outline.depthStopped, Outline.nodeStopped, ShowCtx.note_nothing]
  | .miss reasons => contradiction

theorem fullIn_eq (v : Node) : ∀ (nest : ℕ) (ctx : ShowCtx),
    v.fullIn F nest (ctx.see v) =
      ((v.outline F ctx.cap nest ctx.left).1.text,
        ctx.note (v.outline F ctx.cap nest ctx.left).1.named
          (v.outline F ctx.cap nest ctx.left).1.depthStopped
          (v.outline F ctx.cap nest ctx.left).1.nodeStopped
          (v.outline F ctx.cap nest ctx.left).2) := by
  intro nest ctx
  match v with
  | .mk id op detail line inputs count value =>
      rw [Node.fullIn, Node.outline]
      by_cases hmiss : (Node.mk id op detail line inputs count value).isMiss = true
      · rw [ShowCtx.see_of_miss ctx hmiss]
        cases value with
        | miss reasons => rfl
        | _ => contradiction
      · have hnone : (Node.mk id op detail line inputs count value).isMiss = false := by
          simpa using hmiss
        rw [ShowCtx.see_of_not_miss ctx hnone]
        exact renderFull_eq value _ nest ctx hnone

theorem fullItems_eq (items : List Node) : ∀ (nest : ℕ) (ctx : ShowCtx),
    fullItems F nest items ctx =
      ((outlineItems F ctx.cap nest items ctx.left).1.texts,
        (outlineItems F ctx.cap nest items ctx.left).1.isCut,
        ctx.note (outlineItems F ctx.cap nest items ctx.left).1.named
          (outlineItems F ctx.cap nest items ctx.left).1.depthStopped
          (outlineItems F ctx.cap nest items ctx.left).1.nodeStopped
          (outlineItems F ctx.cap nest items ctx.left).2) := by
  intro nest ctx
  match items with
  | [] => simp [fullItems, outlineItems, OutlineItems.texts, OutlineItems.isCut, OutlineItems.named,
      OutlineItems.depthStopped, OutlineItems.nodeStopped, ShowCtx.note_nothing]
  | v :: vs =>
      obtain ⟨cap, left, misses, depth, nodes⟩ := ctx
      cases left with
      | zero =>
          simp [fullItems, outlineItems, OutlineItems.texts, OutlineItems.isCut, OutlineItems.named,
            OutlineItems.depthStopped, OutlineItems.nodeStopped, ShowCtx.spend, ShowCtx.stopNodes,
            ShowCtx.note]
      | succ left =>
          have hnode := fullIn_eq v nest ⟨cap, left, misses, depth, nodes⟩
          simp only [fullItems, ShowCtx.spend, Nat.add_one_ne_zero, if_false, Nat.add_sub_cancel,
            hnode, fullItems_eq vs nest, ShowCtx.note_note]
          simp [outlineItems, OutlineItems.texts, OutlineItems.isCut, OutlineItems.named,
            OutlineItems.depthStopped, OutlineItems.nodeStopped, ShowCtx.note]

theorem fullFields_eq (fields : List (String × Node)) : ∀ (nest : ℕ) (ctx : ShowCtx),
    fullFields F nest fields ctx =
      ((outlineFields F ctx.cap nest fields ctx.left).1.texts,
        (outlineFields F ctx.cap nest fields ctx.left).1.isCut,
        ctx.note (outlineFields F ctx.cap nest fields ctx.left).1.named
          (outlineFields F ctx.cap nest fields ctx.left).1.depthStopped
          (outlineFields F ctx.cap nest fields ctx.left).1.nodeStopped
          (outlineFields F ctx.cap nest fields ctx.left).2) := by
  intro nest ctx
  match fields with
  | [] => simp [fullFields, outlineFields, OutlineItems.texts, OutlineItems.isCut,
      OutlineItems.named, OutlineItems.depthStopped, OutlineItems.nodeStopped, ShowCtx.note_nothing]
  | (key, v) :: fields =>
      obtain ⟨cap, left, misses, depth, nodes⟩ := ctx
      cases left with
      | zero =>
          simp [fullFields, outlineFields, OutlineItems.texts, OutlineItems.isCut,
            OutlineItems.named, OutlineItems.depthStopped, OutlineItems.nodeStopped, ShowCtx.spend,
            ShowCtx.stopNodes, ShowCtx.note]
      | succ left =>
          have hnode := fullIn_eq v nest ⟨cap, left, misses, depth, nodes⟩
          simp only [fullFields, ShowCtx.spend, Nat.add_one_ne_zero, if_false, Nat.add_sub_cancel,
            hnode, fullFields_eq fields nest, ShowCtx.note_note]
          simp [outlineFields, OutlineItems.texts, OutlineItems.isCut, OutlineItems.named,
            OutlineItems.depthStopped, OutlineItems.nodeStopped, ShowCtx.note]
          rfl

end

/-! ## Bounds and whole outlines -/

/-- Nodes are spent on what is printed, nothing is open at the depth or below, and an outline in
which nothing is stopped prints what the whole one does. -/
structure Outlined (cap nest left : ℕ) (whole : Outline) (out : Outline × ℕ) : Prop where
  spent : out.2 + out.1.nodes = left
  within : out.1.Within cap nest
  whole : out.1.depthStopped = false → out.1.nodeStopped = false → out.1.text = whole.text

structure OutlinedItems (cap nest left : ℕ) (whole : OutlineItems) (out : OutlineItems × ℕ) :
    Prop where
  spent : out.2 + out.1.nodes = left
  within : out.1.Within cap nest
  whole : out.1.depthStopped = false → out.1.nodeStopped = false →
    out.1.texts = whole.texts ∧ out.1.isCut = whole.isCut

section

variable {cap nest left left' left'' : ℕ} {item whole : Outline} {rest wholeRest : OutlineItems}

theorem OutlinedItems.done : OutlinedItems cap nest left .done (.done, left) := by
  constructor
  · rfl
  · trivial
  · exact fun _ _ ↦ ⟨rfl, rfl⟩

theorem OutlinedItems.cut : OutlinedItems cap nest 0 wholeRest (.cut, 0) := by
  constructor
  · rfl
  · trivial
  · intro _ hstopped
    contradiction

theorem OutlinedItems.more (key : String) (h : Outlined cap nest left whole (item, left'))
    (hrest : OutlinedItems cap nest left' wholeRest (rest, left'')) :
    OutlinedItems cap nest (left + 1) (.more key whole wholeRest)
      (.more key item rest, left'') := by
  constructor
  · have hitem := h.spent
    have hspent := hrest.spent
    simp only [OutlineItems.nodes] at hitem hspent ⊢
    omega
  · exact ⟨h.within, hrest.within⟩
  · intro hdepth hnodes
    rw [OutlineItems.depthStopped, Bool.or_eq_false_iff] at hdepth
    rw [OutlineItems.nodeStopped, Bool.or_eq_false_iff] at hnodes
    have htext := h.whole hdepth.1 hnodes.1
    obtain ⟨htexts, hcut⟩ := hrest.whole hdepth.2 hnodes.2
    simp only [OutlineItems.texts, OutlineItems.isCut]
    exact ⟨by rw [htext, htexts], hcut⟩

theorem Outlined.plain (text : String) :
    Outlined cap nest left (.plain text) (.plain text, left) := by
  constructor
  · rfl
  · trivial
  · exact fun _ _ ↦ rfl

theorem Outlined.reasons (v : Node) : Outlined cap nest left (.reasons v) (.reasons v, left) := by
  constructor
  · rfl
  · trivial
  · exact fun _ _ ↦ rfl

/-- A list or a record that is opened. -/
theorem Outlined.opened (opening closing : String) (hnest : nest < cap)
    (h : OutlinedItems cap (nest + 1) left wholeRest (rest, left')) :
    Outlined cap nest left (.opened opening closing wholeRest)
      (.opened opening closing rest, left') := by
  constructor
  · exact h.spent
  · exact ⟨hnest, h.within⟩
  · intro hdepth hnodes
    obtain ⟨htexts, hcut⟩ := h.whole hdepth hnodes
    simp only [Outline.text]
    rw [htexts, hcut]

/-- A list or a record that stays shut. -/
theorem Outlined.shut {text : String} {hidden : Bool} (h : hidden = false → text = whole.text) :
    Outlined cap nest left whole (.shut text hidden, left) := by
  constructor
  · rfl
  · trivial
  · exact fun hdepth _ ↦ h hdepth

theorem Outlined.guess (head : String) (h : Outlined cap (nest + 1) left whole (item, left')) :
    Outlined cap nest (left + 1) (.guess head whole) (.guess head item, left') := by
  constructor
  · have hspent := h.spent
    simp only [Outline.nodes] at hspent ⊢
    omega
  · exact h.within
  · intro hdepth hnodes
    simp only [Outline.text]
    rw [h.whole hdepth hnodes]

theorem Outlined.guessCut (head : String) : Outlined cap nest 0 whole (.guessCut head, 0) := by
  constructor
  · rfl
  · trivial
  · intro _ hstopped
    contradiction

end

mutual

theorem outlined_payload (p : Payload) : ∀ (cap : ℕ) (v : Node) (nest left : ℕ),
    Outlined cap nest left (p.wholeOutline F v) (p.outline F cap v nest left) := by
  intro cap v nest left
  match p with
  | .list items =>
      rw [Payload.outline, Payload.wholeOutline]
      split
      · apply Outlined.shut
        intro hempty
        obtain rfl : items = [] := by simpa using hempty
        rfl
      · rename_i hnest
        exact Outlined.opened "[" "]" (not_le.mp hnest) (outlined_items items cap (nest + 1) left)
  | .record fields =>
      rw [Payload.outline, Payload.wholeOutline]
      split
      · apply Outlined.shut
        intro hempty
        obtain rfl : fields = [] := by simpa using hempty
        rfl
      · rename_i hnest
        exact Outlined.opened "@\x7b" "\x7d" (not_le.mp hnest)
          (outlined_fields fields cap (nest + 1) left)
  | .guess node confidence sources =>
      cases left with
      | zero => exact Outlined.guessCut _
      | succ left => exact Outlined.guess _ (outlined_node node cap (nest + 1) left)
  | .miss reasons => exact Outlined.reasons v
  | .bool b => exact Outlined.plain _
  | .num n => exact Outlined.plain _
  | .str s => exact Outlined.plain _
  | .closure (.mk _ _ _ _ _) => exact Outlined.plain _
  | .builtin name => exact Outlined.plain _
  | .explanation root => exact Outlined.plain _

theorem outlined_node (v : Node) : ∀ (cap nest left : ℕ),
    Outlined cap nest left (v.wholeOutline F) (v.outline F cap nest left) := by
  intro cap nest left
  match v with
  | .mk id op detail line inputs count value =>
      rw [Node.outline, Node.wholeOutline]
      exact outlined_payload value cap _ nest left

theorem outlined_items (items : List Node) : ∀ (cap nest left : ℕ),
    OutlinedItems cap nest left (wholeItems F items) (outlineItems F cap nest items left) := by
  intro cap nest left
  match items with
  | [] => exact OutlinedItems.done
  | v :: vs =>
      cases left with
      | zero => exact OutlinedItems.cut
      | succ left =>
          exact OutlinedItems.more "" (outlined_node v cap nest left) (outlined_items vs cap nest _)

theorem outlined_fields (fields : List (String × Node)) : ∀ (cap nest left : ℕ),
    OutlinedItems cap nest left (wholeFields F fields) (outlineFields F cap nest fields left) := by
  intro cap nest left
  match fields with
  | [] => exact OutlinedItems.done
  | (key, v) :: fields =>
      cases left with
      | zero => exact OutlinedItems.cut
      | succ left =>
          exact OutlinedItems.more _ (outlined_node v cap nest left)
            (outlined_fields fields cap nest _)

end

/-! ## What is reported -/

/-- `FullRendering`. -/
structure FullRendering where
  text : String
  misses : List Node
  depthStopped : Bool
  nodeStopped : Bool

def ShowCtx.report (ctx : ShowCtx) (text : String) : FullRendering :=
  ⟨text, ctx.misses, ctx.depthStopped, ctx.nodeStopped⟩

/-- `full_show_named`.  A negative bound leaves as little as the bound 0. -/
def fullShowNamed (cap budget : ℤ) (v : Node) : FullRendering :=
  let ctx := ShowCtx.start cap.toNat budget.toNat
  match v.value with
  | .miss reasons => (ctx.see v).report ("miss: " ++ "; ".intercalate reasons)
  | .explanation root => ctx.report (renderWhy F 10 200 root)
  | .str s => ctx.report s
  | .list items =>
      let (parts, cut, ctx) := fullItems F 0 items ctx
      ctx.report ("[" ++ commaSep parts cut ++ "]")
  | .record fields =>
      let (parts, cut, ctx) := fullFields F 0 fields ctx
      ctx.report ("@\x7b" ++ commaSep parts cut ++ "\x7d")
  | p =>
      let (text, ctx) := p.renderFull F 0 ctx
      ctx.report text

/-- The outline that `full_show_named` prints, where the outermost list or record is always open. -/
def Node.printed (cap budget : ℕ) (v : Node) : Outline :=
  match v.value with
  | .explanation root => .plain (renderWhy F 10 200 root)
  | .str s => .plain s
  | .list items => .opened "[" "]" (outlineItems F cap 0 items budget).1
  | .record fields => .opened "@\x7b" "\x7d" (outlineFields F cap 0 fields budget).1
  | p => (p.outline F cap v 0 budget).1

/-- The outline without a bound. -/
def Node.whole (v : Node) : Outline :=
  match v.value with
  | .explanation root => .plain (renderWhy F 10 200 root)
  | .str s => .plain s
  | p => p.wholeOutline F v

/-- The text of an outline of the node; the reasons of a miss on its own are not quoted. -/
def Node.printedText (v : Node) (o : Outline) : String :=
  match v.value with
  | .miss reasons => "miss: " ++ "; ".intercalate reasons
  | _ => o.text

/-- The lists and records inside an outline are within the depth. -/
def Outline.WithinCap (cap : ℕ) : Outline → Prop
  | .opened _ _ items => items.Within cap 0
  | o => o.Within cap 0

/-- The report of an outline. -/
def Outline.report (v : Node) (o : Outline) : FullRendering :=
  ⟨v.printedText o, o.named.foldl ShowCtx.addMiss [], o.depthStopped, o.nodeStopped⟩

theorem fullShowNamed_eq (cap budget : ℤ) (v : Node) :
    fullShowNamed F cap budget v = (v.printed F cap.toNat budget.toNat).report v := by
  have hatom : v.value.isMiss = false →
      (v.value.renderFull F 0 (ShowCtx.start cap.toNat budget.toNat)) = _ :=
    renderFull_eq F v.value v 0 (ShowCtx.start cap.toNat budget.toNat)
  unfold fullShowNamed Node.printed Outline.report Node.printedText
  cases hvalue : v.value with
  | miss reasons =>
      have hmiss : v.isMiss = true := by rw [Node.isMiss, hvalue]; rfl
      simp only [ShowCtx.see_of_miss _ hmiss]
      rfl
  | list items =>
      simp only [fullItems_eq, ShowCtx.report, ShowCtx.note, ShowCtx.start]
      simp [Outline.text, Outline.named, Outline.depthStopped, Outline.nodeStopped]
  | record fields =>
      simp only [fullFields_eq, ShowCtx.report, ShowCtx.note, ShowCtx.start]
      simp [Outline.text, Outline.named, Outline.depthStopped, Outline.nodeStopped]
  | guess node confidence sources =>
      rw [hvalue] at hatom
      dsimp only
      rw [hatom rfl]
      simp [ShowCtx.report, ShowCtx.note, ShowCtx.start]
  | _ => rfl

theorem outlined_printed (cap budget : ℕ) (v : Node) :
    (v.printed F cap budget).nodes ≤ budget ∧ (v.printed F cap budget).WithinCap cap ∧
      ((v.printed F cap budget).depthStopped = false →
        (v.printed F cap budget).nodeStopped = false →
        (v.printed F cap budget).text = (v.whole F).text) := by
  have hitems : ∀ opening closing whole out, OutlinedItems cap 0 budget whole out →
      (Outline.opened opening closing out.1).nodes ≤ budget ∧
        (Outline.opened opening closing out.1).WithinCap cap ∧
        ((Outline.opened opening closing out.1).depthStopped = false →
          (Outline.opened opening closing out.1).nodeStopped = false →
          (Outline.opened opening closing out.1).text =
            (Outline.opened opening closing whole).text) := by
    intro opening closing whole out h
    refine ⟨?_, h.within, ?_⟩
    · have hspent := h.spent
      rw [Outline.nodes]
      omega
    · intro hdepth hnodes
      obtain ⟨htexts, hcut⟩ := h.whole hdepth hnodes
      simp only [Outline.text]
      rw [htexts, hcut]
  have hother := outlined_payload F v.value cap v 0 budget
  have hplain : ∀ text, (Outline.plain text).nodes ≤ budget ∧ (Outline.plain text).WithinCap cap ∧
      ((Outline.plain text).depthStopped = false → (Outline.plain text).nodeStopped = false →
        (Outline.plain text).text = (Outline.plain text).text) :=
    fun text ↦ ⟨Nat.zero_le _, trivial, fun _ _ ↦ rfl⟩
  unfold Node.printed Node.whole
  cases hvalue : v.value with
  | list items => exact hitems "[" "]" _ _ (outlined_items F items cap 0 budget)
  | record fields => exact hitems "@\x7b" "\x7d" _ _ (outlined_fields F fields cap 0 budget)
  | explanation root => exact hplain _
  | str s => exact hplain _
  | guess node confidence sources =>
      rw [hvalue] at hother
      have hspent := hother.spent
      refine ⟨by dsimp only; omega, ?_, hother.whole⟩
      cases budget with
      | zero => trivial
      | succ budget => exact hother.within
  | miss reasons => exact ⟨Nat.zero_le _, trivial, fun _ _ ↦ rfl⟩
  | closure c =>
      obtain ⟨_, _, _, _, _⟩ := c
      exact hplain _
  | _ => exact hplain _

end

/-! ### The misses -/

/-- The one text is part of the other. -/
def Appears (part whole : String) : Prop := part.toList <:+: whole.toList

theorem Appears.refl (part : String) : Appears part part := List.infix_rfl

theorem Appears.trans {part whole text : String} (h : Appears part whole)
    (h' : Appears whole text) :
    Appears part text :=
  List.IsInfix.trans h h'

theorem Appears.append {part whole : String} (h : Appears part whole) (before behind : String) :
    Appears part (before ++ whole ++ behind) := by
  simp only [Appears, String.toList_append, List.append_assoc]
  exact List.IsInfix.trans h (List.infix_append' _ _ _)

theorem infix_intercalate {α : Type} {sep part : List α} {parts : List (List α)}
    (h : part ∈ parts) :
    part <:+: sep.intercalate parts := by
  induction parts with
  | nil => contradiction
  | cons first parts ih =>
      cases parts with
      | nil =>
          obtain rfl := List.mem_singleton.mp h
          rw [List.intercalate_singleton]
      | cons second parts =>
          rw [List.intercalate_cons_cons]
          rcases List.mem_cons.mp h with rfl | h
          · rw [List.append_assoc]
            exact (List.prefix_append _ _).isInfix
          · exact (ih h).trans (List.suffix_append _ _).isInfix

theorem appears_commaSep {part : String} {parts : List String} (h : part ∈ parts) (cut : Bool) :
    Appears part (commaSep parts cut) := by
  have hparts : Appears part (", ".intercalate parts) := by
    rw [Appears, String.toList_intercalate]
    exact infix_intercalate (List.mem_map_of_mem h)
  rw [commaSep]
  simpa using hparts.append "" (if cut then ", …" else "")

mutual

theorem appears_of_named (o : Outline) :
    ∀ m ∈ o.named, Appears (missText m.value.reasons) o.text := by
  intro m hm
  match o with
  | .reasons v =>
      obtain rfl := List.mem_singleton.mp hm
      exact Appears.refl _
  | .opened opening closing items =>
      obtain ⟨part, hpart, happears⟩ := appears_of_namedItems items m hm
      exact (happears.trans (appears_commaSep hpart _)).append opening closing
  | .guess head inner =>
      have happears := (appears_of_named inner m hm).append head ""
      simpa [Outline.text] using happears
  | .plain _ | .shut _ _ | .guessCut _ => contradiction

theorem appears_of_namedItems (items : OutlineItems) : ∀ m ∈ items.named,
    ∃ part ∈ items.texts, Appears (missText m.value.reasons) part := by
  intro m hm
  match items with
  | .done | .cut => contradiction
  | .more key item rest =>
      rcases List.mem_append.mp hm with hm | hm
      · have happears := (appears_of_named item m hm).append key ""
        exact ⟨_, List.mem_cons_self, by simpa using happears⟩
      · obtain ⟨part, hpart, happears⟩ := appears_of_namedItems rest m hm
        exact ⟨part, List.mem_cons_of_mem _ hpart, happears⟩

end

theorem mem_addMisses {named misses : List Node} {m : Node}
    (h : m ∈ named.foldl ShowCtx.addMiss misses) : m ∈ misses ∨ m ∈ named := by
  induction named generalizing misses with
  | nil => exact .inl h
  | cons v named ih =>
      rcases ih h with h | h
      · rw [ShowCtx.addMiss] at h
        split at h
        · exact .inl h
        · rcases List.mem_append.mp h with h | h
          · exact .inl h
          · exact .inr (List.mem_singleton.mp h ▸ List.mem_cons_self)
      · exact .inr (List.mem_cons_of_mem v h)

/-- The misses are kept apart by what they are, each where it is first printed. -/
theorem ids_addMisses (named misses : List Node) :
    (named.foldl ShowCtx.addMiss misses).map Node.id =
      addNew (misses.map Node.id) (named.map Node.id) := by
  induction named generalizing misses with
  | nil => rfl
  | cons v named ih =>
      have hids : (ShowCtx.addMiss misses v).map Node.id =
          if v.id ∈ misses.map Node.id then misses.map Node.id
          else misses.map Node.id ++ [v.id] := by
        rw [ShowCtx.addMiss]
        by_cases hseen : v.id ∈ misses.map Node.id
        · have hany : misses.any (·.id = v.id) = true := by simpa using hseen
          simp [hany, hseen]
        · have hany : misses.any (·.id = v.id) = false := by simpa using hseen
          simp [hany, hseen]
      rw [List.foldl_cons, ih, hids]
      rfl

/-! ### The report is exact -/

/-- How the reasons of a miss are printed where the value is printed. -/
def Node.reasonsText (v m : Node) : String :=
  if v.isMiss then "; ".intercalate m.value.reasons else missText m.value.reasons

/-- The report of a full rendering is what the outline prints. -/
structure ReportsPrinted (F : FloatOps) (cap budget : ℕ) (v : Node) (r : FullRendering) : Prop where
  text_eq : r.text = v.printedText (v.printed F cap budget)
  /-- A miss is reported where its reasons are printed, and only there. -/
  misses_iff : ∀ id, id ∈ r.misses.map Node.id ↔ id ∈ (v.printed F cap budget).named.map Node.id
  once : (r.misses.map Node.id).Nodup
  appears : ∀ m ∈ r.misses, Appears (v.reasonsText m) r.text
  whole : r.depthStopped = false → r.nodeStopped = false → r.text = v.printedText (v.whole F)
  bounded : (v.printed F cap budget).nodes ≤ budget
  within : (v.printed F cap budget).WithinCap cap

theorem printedText_of_miss {v : Node} (h : v.isMiss = true) (o : Outline) :
    v.printedText o = "miss: " ++ v.reasonsText v := by
  unfold Node.isMiss at h
  unfold Node.printedText Node.reasonsText Node.isMiss
  cases hvalue : v.value with
  | miss reasons => simp [Payload.isMiss, Payload.reasons]
  | _ =>
      rw [hvalue] at h
      contradiction

theorem printedText_of_not_miss {v : Node} (h : v.isMiss = false) (o : Outline) :
    v.printedText o = o.text := by
  unfold Node.isMiss at h
  unfold Node.printedText
  cases hvalue : v.value with
  | miss reasons =>
      rw [hvalue] at h
      contradiction
  | _ => rfl

theorem named_printed_of_miss {v : Node} (h : v.isMiss = true) (cap budget : ℕ) :
    (v.printed F cap budget).named = [v] := by
  unfold Node.isMiss at h
  unfold Node.printed
  cases hvalue : v.value with
  | miss reasons => rfl
  | _ =>
      rw [hvalue] at h
      contradiction

/-- What `full_show_named` reports is what it prints. -/
theorem fullShowNamed_exact (F : FloatOps) (cap budget : ℤ) (v : Node) :
    ReportsPrinted F cap.toNat budget.toNat v (fullShowNamed F cap budget v) := by
  obtain ⟨hnodes, hwithin, hwhole⟩ := outlined_printed F cap.toNat budget.toNat v
  have hids := ids_addMisses (v.printed F cap.toNat budget.toNat).named []
  rw [fullShowNamed_eq]
  constructor
  · rfl
  · intro id
    rw [Outline.report, hids, mem_addNew]
    simp
  · rw [Outline.report, hids]
    exact addNew_nodup List.nodup_nil
  · intro m hm
    have hnamed := (mem_addMisses hm).resolve_left List.not_mem_nil
    rw [Outline.report]
    by_cases hmiss : v.isMiss = true
    · rw [named_printed_of_miss hmiss] at hnamed
      obtain rfl := List.mem_singleton.mp hnamed
      rw [printedText_of_miss hmiss]
      simpa using (Appears.refl (m.reasonsText m)).append "miss: " ""
    · have hnone : v.isMiss = false := by simpa using hmiss
      rw [printedText_of_not_miss hnone, Node.reasonsText, if_neg hmiss]
      exact appears_of_named _ m hnamed
  · intro hdepth hnodes
    rw [Outline.report]
    by_cases hmiss : v.isMiss = true
    · rw [printedText_of_miss hmiss, printedText_of_miss hmiss]
    · have hnone : v.isMiss = false := by simpa using hmiss
      rw [printedText_of_not_miss hnone, printedText_of_not_miss hnone]
      exact hwhole hdepth hnodes
  · exact hnodes
  · exact hwithin

/-- The misses that a print names are those reported with the bounds of the host. -/
theorem namedMisses_eq (F : FloatOps) (v : Node) :
    v.namedMisses F = (fullShowNamed F fullShowNest fullShowNodes v).misses := by
  unfold Node.namedMisses fullShowNamed
  cases hvalue : v.value with
  | miss reasons =>
      have hmiss : v.isMiss = true := by rw [Node.isMiss, hvalue]; rfl
      simp [ShowCtx.see, ShowCtx.start, ShowCtx.report, hmiss]
  | _ => rfl

/-- Floats of which only the text of the confidence 1 is ever asked. -/
def oneTextFloats : FloatOps where
  parse _ := 0
  repr _ := "0.0"
  fmt2g _ := "1"
  add _ _ := none
  sub _ _ := none
  mul _ _ := none
  div _ _ := none
  mod _ _ := none
  neg x := x
  abs x := x
  sqrt _ := none
  trunc _ := none
  isFinite _ := true

/-- A guess of a guess and so on, made of a literal. -/
def guessChain : ℕ → Node
  | 0 => leafStep 0 7
  | n + 1 => .mk (.made (n + 1)) "guess" "" 1 [guessChain n] 1
      (.guess (guessChain n) (.int 1) ["model"])

/-- Guesses are not held to the depth. -/
theorem nesting_not_within :
    ¬∀ (F : FloatOps) (cap budget : ℤ) (v : Node),
      (v.printed F cap.toNat budget.toNat).nesting ≤ cap.toNat := by
  intro h
  have hchain := h oneTextFloats 1 10 (guessChain 3)
  revert hchain
  decide

end NucLlm.Whence
