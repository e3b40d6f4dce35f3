import ApkWorkshop.Theme.Colour
import ApkWorkshop.World.World
import ApkWorkshop.World.Access

/-!
# The palette of a theme

The settings name a theme and hold the colours of all themes. Colours that are missing are black
on white, and a lighter and a darker ground are derived from the ground of the theme.
-/

namespace ApkWorkshop.Theme

def colourOf (theme : Value) (key usual : String) : Except Fault Value :=
  theme.lookup key (.text usual)

def paletteOf (theme : Value) : Except Fault ThemeColours := do
  let background ← colourOf theme "background" "#FFFFFF"
  let text ← colourOf theme "text_color" "#000000"
  let buttonText ← colourOf theme "button_text" "#000000"
  let scrollText ← colourOf theme "scroll_text" "#000000"
  return {
    background
    lighter := lightenUsually background
    darker := darkenUsually background
    text
    buttonText
    scrollText }

def palette (data : Value) : Except Fault ThemeColours := do
  let themes ← data.lookup "themes" (.object [])
  let current ← data.lookup "current_theme" (.text "light")
  let theme ← themes.lookupBy current (.object [])
  paletteOf theme

end ApkWorkshop.Theme
