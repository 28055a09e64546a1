import Zinc.Buffer.RoundTrip
import Zinc.Text.RoundTrip

/-! NBT elements and text components in the default byte order of a buffer. An untagged
element is written as one word, from which an element with the same tree is read. A text
component is written as the element that it encodes to; what is read from that element is
the component without what decoding does not read. -/

namespace Zinc.Text

open Throw Buffer Buffer.ByteBuffer Nbt Nbt.NBTElement

variable {view : ByteBuffer → Bytes → Prop}

/-! ### Elements -/

/-- The word of an untagged element. -/
def nbtBytes (element : NBTElement) : Bytes :=
  head true networkSettings (tree element) ++ (tree element).payload true

theorem placed_network {element : NBTElement} (htag : element.tag = []) :
    Placed true networkSettings (tree element) :=
  ⟨fun _ => ⟨rfl, by rw [tree_tag, htag]⟩, fun h => absurd h (by decide), fun _ => rfl⟩

theorem produces_writeNBTElement (hv : Writable true view) {element : NBTElement}
    (ht : (tree element).WellFormed) (htag : element.tag = []) :
    Produces view (writeNBTElement element) (nbtBytes element) :=
  encodeWith_produces hv ht element networkSettings rfl (placed_network htag)

theorem consumes_readNBTElement {element : NBTElement} (ht : (tree element).WellFormed)
    (htag : element.tag = []) {n : ℕ} (hn : fuel (tree element) ≤ n) :
    Consumes (Stored true) (readNBTElement n) (nbtBytes element)
      (decoded networkSettings (tree element)) :=
  decode_consumes ht networkSettings n (placed_network htag) (fun _ => by rw [tree_tag, htag]) hn

/-! ### Text components -/

/-- `TextComponent::encode(ByteBuffer&)`. -/
def writeTextComponent (textComponent : TextComponent) : Action Unit :=
  writeNBTElement textComponent.encode

/-- `TextComponent::decode(ByteBuffer&)` on a new component. -/
def readTextComponent (n : ℕ) : Action TextComponent := do
  let element ← readNBTElement n
  fun buffer => do
    let text ← TextComponent.decode n element .new
    return (text, buffer)

def textBytes (text : TextComponent) : Bytes := nbtBytes text.encode

theorem encode_tag (text : TextComponent) : text.encode.tag = [] := by
  rw [TextComponent.encode_eq]
  rfl

theorem produces_writeTextComponent (hv : Writable true view) {text : TextComponent}
    (h : text.Small) : Produces view (writeTextComponent text) (textBytes text) :=
  produces_writeNBTElement hv h.wellFormed (encode_tag text)

/-- From some bound on the word of a component is taken, whatever is made of it. -/
theorem consumes_readTextComponent {text : TextComponent} (h : text.Small) :
    ∃ bound, ∀ n ≥ bound,
      Consumes (Stored true) (readTextComponent n) (textBytes text) text.stripped := by
  obtain ⟨bound, hbound⟩ := TextComponent.decode_stripped h.fits
  refine ⟨max bound (fuel (tree text.encode)), fun n hn buffer rest hs => ?_⟩
  obtain ⟨buffer', hread, hs'⟩ :=
    consumes_readNBTElement h.wellFormed (encode_tag text) (le_trans (le_max_right _ _) hn)
      buffer rest hs
  refine ⟨buffer', ?_, hs'⟩
  rw [readTextComponent, bind_of_eq_ok hread]
  simp only [hbound n (le_trans (le_max_left _ _) hn) _ (tree_decoded h.wellFormed _), ok_bind,
    pure_eq]

end Zinc.Text
