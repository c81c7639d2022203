-- SUMMARY: The values that `is:` and `has:` take, and the terms that stand for other terms.
import Mathlib.Data.List.Basic

/-!
# Derived terms

A term may be short for a query of its own, which is parsed in its place. Other values name a tag
that the importer stores, or a predicate that the engine answers.
-/

namespace DerivedTerms

/-! ## Tags -/

/-- The keys of `BOOLEAN_IS_TAGS`. -/
def BOOLEAN_IS_TAGS : List String :=
  ["booster", "contentwarning", "digital", "foil", "fullart", "gamechanger", "hires", "nonfoil", "oversized",
   "promo", "reprint", "reserved", "spotlight", "textless", "variation"]

/-- The keys of `ARRAY_IS_TAGS`. -/
def ARRAY_IS_TAGS : List String :=
  ["arena_league", "beginnerbox", "boosterfun", "boxtopper", "brawldeck", "bringafriend", "bundle",
   "buyabox", "chocobotrackfoil", "commanderparty", "commanderpromo", "concept", "confettifoil",
   "convention", "cosmicfoil", "datestamped", "dazzlefoil", "dossier", "doubleexposure", "doublerainbow",
   "draculaseries", "draftweekend", "dragonscalefoil", "duels", "embossed", "etched", "event", "facetfoil",
   "ffi", "ffii", "ffiii", "ffiv", "ffix", "ffv", "ffvi", "ffvii", "ffviii", "ffx", "ffxi", "ffxii",
   "ffxiii", "ffxiv", "ffxv", "ffxvi", "firstplacefoil", "fnm", "fracturefoil", "galaxyfoil", "gameday",
   "giftbox", "gilded", "gleaminggold", "glossy", "godzillaseries", "halofoil", "headliner", "imagine",
   "instore", "intro_pack", "invisibleink", "japanshowcase", "jpwalker", "judge_gift", "league", "magnified",
   "manafoil", "media_insert", "moonlitland", "neonink", "oilslick", "openhouse", "planeswalker_deck",
   "player_rewards", "playpromo", "playtest", "portrait", "poster", "premiereshop", "prerelease",
   "promopack", "rainbowfoil", "raisedfoil", "ravnicacity", "rebalanced", "release", "resale", "ripplefoil",
   "schinesealtart", "scroll", "serialized", "set_promo", "setextension", "silverfoil", "silverscroll",
   "singularityfoil", "sldbonus", "sourcematerial", "stamped", "standardshowdown", "startercollection",
   "starterdeck", "stepandcompleat", "storechampionship", "surgefoil", "textured", "themepack", "thick",
   "tourney", "universesbeyond", "upsidedown", "vault", "wizardsplaynetwork"]

def GAME_IS_TAGS : List (String × String) :=
  [("paper", "game_paper"), ("arena", "game_arena"), ("mtgo", "game_mtgo"), ("astral", "game_astral"), ("sega", "game_sega")]

def gameTagKey (value : String) : String := (GAME_IS_TAGS.lookup value).getD s!"game_{value}"

def COMPUTED_IS_TAGS : List String :=
  ["gateway", "lair", "covered", "intro", "invitational", "jumpstart", "misprint", "related", "spellbook",
   "spikey", "back", "indicator", "attractionlights", "fbb", "fwb", "unset", "tron", "vergeland",
   "timeshifted", "bear", "frenchvanilla", "modal", "gainland", "scryfallpreview", "extra", "funny",
   "hybrid", "meldpart", "meldresult", "commander", "brawler", "duelcommander", "oathbreaker", "spell"]

def NEW_RARITY_IS_VALUE : String := "newrarity"

def NEW_FLAG_IS_VALUES : List String :=
  ["newcard", "newframe", "newmtgo", "newarena", "newastral", "newsega", "newgame", "newfoil", "newnonfoil",
   "newflavor", "newart", "newlanguage", "newartist"]

def ENGINE_IS_VALUES : List String :=
  ["localizedname", "unique", "vanilla", "flavorname", "atypical", "default", "mtgoid", "arenaid",
   "tcgplayer", "cardmarket", "multiverse", "illustration", "image", "placeholderimage", "printedtext",
   "englishart", "paperart"]
    ++ NEW_RARITY_IS_VALUE :: NEW_FLAG_IS_VALUES

/-! ## Expansions -/

def TERM_EXPANSIONS : List ((String × String) × String) :=
  [(("frame", "modern"), "frame:2003"), (("frame", "old"), "frame:1993 or frame:1997"),
   (("frame", "new"), "frame:2003 or frame:2015 or frame:future"),
   (("is", "old"), "frame:1993 or frame:1997"),
   (("is", "new"), "frame:2003 or frame:2015 or frame:future"),
   (("is", "historic"), "t:legendary or t:artifact or t:saga"),
   (("is", "permanent"), "t:creature or t:artifact or t:enchantment or t:land or t:planeswalker or t:battle or " ++
      "t:summon or t:eaturecray"),
   (("is", "party"), "t:creature (t:cleric or t:rogue or t:warrior or t:wizard or kw:changeling)"),
   (("is", "outlaw"), "t:assassin or t:mercenary or t:pirate or t:rogue or t:warlock or kw:changeling"),
   (("is", "etb"), "fo:enters"),
   (("is", "watermark"), "has:watermark"),
   (("is", "split"), "layout:split"),
   (("is", "flip"), "layout:flip"),
   (("is", "transform"), "layout:transform"),
   (("is", "mdfc"), "layout:modal_dfc"),
   (("is", "meld"), "layout:meld"),
   (("is", "leveler"), "layout:leveler"),
   (("is", "dfc"), "layout:transform or layout:modal_dfc or layout:art_series or layout:double_faced_token or " ++
      "layout:reversible_card"),
   (("is", "tdfc"), "layout:transform"),
   (("is", "artseries"), "layout:art_series"),
   (("is", "augmentation"), "layout:host or layout:augment"),
   (("is", "host"), "layout:host or layout:augment"),
   (("is", "planar"), "layout:planar"),
   (("is", "reversible"), "layout:reversible_card"),
   (("is", "token"), "layout:token or layout:double_faced_token or t:token"),
   (("is", "colorshifted"), "frame:colorshifted"),
   (("is", "extendedart"), "frame:extendedart"),
   (("is", "showcase"), "frame:showcase"),
   (("is", "tombstone"), "frame:tombstone"),
   (("is", "borderless"), "border:borderless"),
   (("is", "battleland"), "otag:cycle-tangoland"),
   (("is", "bicycleland"), "otag:cycle-dual-cycling-land"),
   (("is", "bikeland"), "otag:cycle-dual-cycling-land"),
   (("is", "bondland"), "otag:cycle-bondland"),
   (("is", "bounceland"), "otag:bounceland"),
   (("is", "canland"), "otag:cycle-horizon-land"),
   (("is", "canopyland"), "otag:cycle-horizon-land"),
   (("is", "checkland"), "otag:cycle-checkland"),
   (("is", "cycleland"), "otag:cycle-dual-cycling-land"),
   (("is", "creatureland"), "t:land o:become o:creature o:/still a.* land/"),
   (("is", "dual"), "otag:cycle-abu-dual-land"),
   (("is", "fastland"), "otag:cycle-fastland"),
   (("is", "fetchland"), "otag:cycle-fetchland"),
   (("is", "filterland"), "otag:cycle-hybrid-filterland or otag:cycle-ody-filterland"),
   (("is", "karoo"), "otag:bounceland"),
   (("is", "manland"), "t:land o:become o:creature o:/still a.* land/"),
   (("is", "pathway"), "otag:cycle-pathway"),
   (("is", "painland"), "otag:cycle-painland"),
   (("is", "scryland"), "otag:cycle-block-ths-scry-land"),
   (("is", "shadowland"), "t:land o:/reveal an? (Plains|Island|Swamp|Mountain|Forest)/"),
   (("is", "shockland"), "otag:shockland"),
   (("is", "slowland"), "otag:cycle-slowland"),
   (("is", "snarl"), "t:land o:/reveal an? (Plains|Island|Swamp|Mountain|Forest)/"),
   (("is", "surveilland"), "otag:cycle-dual-surveil-land"),
   (("is", "storageland"), "otag:cycle-fem-storage-land or otag:cycle-mmq-storage-land or otag:cycle-tsp-storage-land"),
   (("is", "tangoland"), "otag:cycle-tangoland"),
   (("is", "triland"), "otag:cycle-ala-shardland or otag:cycle-ktk-wedgeland"),
   (("is", "triome"), "otag:cycle-iko-triome or otag:cycle-snc-triland"),
   (("is", "tricycleland"), "otag:tricycle-land"),
   (("is", "partner"), "t:legendary (keyword:partner or keyword:\"choose a background\" or keyword:\"doctor's " ++
      "companion\" or t:background or (t:\"time lord\" t:doctor))"),
   (("is", "companion"), "kw:companion"),
   (("is", "class"), "t:class"),
   (("is", "adventure"), "layout:adventure"),
   (("is", "alchemy"), "st:alchemy"),
   (("is", "masterpiece"), "st:masterpiece"),
   (("is", "firstprinting"), "-is:reprint"),
   (("is", "firstprint"), "-is:reprint"),
   (("is", "phyrexian"), "m:\x7bW/P\x7d or m:\x7bU/P\x7d or m:\x7bB/P\x7d or m:\x7bR/P\x7d or m:\x7bG/P\x7d or " ++
      "m:\x7bW/U/P\x7d or m:\x7bW/B/P\x7d or m:\x7bU/B/P\x7d or m:\x7bU/R/P\x7d or m:\x7bB/R/P\x7d " ++
      "or m:\x7bB/G/P\x7d or m:\x7bR/G/P\x7d or m:\x7bR/W/P\x7d or m:\x7bG/W/P\x7d or " ++
      "m:\x7bG/U/P\x7d or o:\"\x7bw/p\x7d\" or o:\"\x7bu/p\x7d\" or o:\"\x7bb/p\x7d\" or " ++
      "o:\"\x7br/p\x7d\" or o:\"\x7bg/p\x7d\" or o:\"\x7bc/p\x7d\" or o:\"\x7bw/u/p\x7d\" or " ++
      "o:\"\x7bw/b/p\x7d\" or o:\"\x7bu/b/p\x7d\" or o:\"\x7bu/r/p\x7d\" or o:\"\x7bb/r/p\x7d\" or " ++
      "o:\"\x7bb/g/p\x7d\" or o:\"\x7br/g/p\x7d\" or o:\"\x7br/w/p\x7d\" or o:\"\x7bg/w/p\x7d\" or " ++
      "o:\"\x7bg/u/p\x7d\""),
   (("is", "full"), "is:fullart"),
   (("is", "promostamped"), "is:stamped"),
   (("is", "judge"), "is:judge_gift"),
   (("is", "arenaleague"), "is:arena_league"),
   (("is", "intropack"), "is:intro_pack"),
   (("is", "judgegift"), "is:judge_gift"),
   (("is", "mediainsert"), "is:media_insert"),
   (("is", "planeswalkerdeck"), "is:planeswalker_deck"),
   (("is", "setpromo"), "is:set_promo"),
   (("is", "rainbow"), "is:rainbowfoil")]

def HAS_EXPANSIONS : List (String × String) :=
  [("artist", "artist:/./"), ("flavor", "flavor:/./"), ("watermark", "watermark:/./"),
   ("booster", "is:booster"), ("etched", "is:etched"), ("foil", "is:foil"), ("glossy", "is:glossy"),
   ("highres", "is:hires"), ("nonfoil", "is:nonfoil"), ("spotlight", "is:spotlight"),
   ("story", "is:spotlight"), ("printedname", "is:localizedname")]

/-- Every `is:` value that can be answered at all. -/
def SUPPORTED_IS_VALUES : List String :=
  BOOLEAN_IS_TAGS ++ ARRAY_IS_TAGS ++ GAME_IS_TAGS.map (·.2) ++ COMPUTED_IS_TAGS ++ ENGINE_IS_VALUES
    ++ (TERM_EXPANSIONS.filter (·.1.1 = "is")).map (·.1.2)

def SUPPORTED_HAS_VALUES : List String := HAS_EXPANSIONS.map (·.1) ++ SUPPORTED_IS_VALUES

/-- The terms of `has:`: those of its own, and where there is none the `is:` term of the value. -/
def DERIVED_EXPANSIONS : List ((String × String) × String) :=
  TERM_EXPANSIONS ++ HAS_EXPANSIONS.map (fun row => (("has", row.1), row.2))
    ++ SUPPORTED_IS_VALUES.map fun value => (("has", value), s!"is:{value}")

end DerivedTerms
