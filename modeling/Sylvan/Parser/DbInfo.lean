-- SUMMARY: The columns a query can name, and the aliases they go by.

/-!
# Database fields

Every alias in the table is lowercase ASCII.
-/

inductive FieldType where
  | jsonbArray
  | jsonbObject
  | numeric
  | text
  | date
deriving DecidableEq, Repr

inductive ParserClass where
  | numeric
  | mana
  | rarity
  | legality
  | color
  | text
  | date
  | year
deriving DecidableEq, Repr

structure FieldInfo where
  dbColumnName : String
  fieldType : FieldType
  searchAliases : List String
  parserClass : ParserClass
deriving DecidableEq, Repr

def DB_COLUMNS : List FieldInfo :=
  [⟨"card_artist", .text, ["artist", "a"], .text⟩,
    ⟨"card_colors", .jsonbObject, ["color", "colors", "colour", "colours", "c"], .color⟩,
    ⟨"card_color_identity", .jsonbObject, ["color_identity", "coloridentity", "id", "identity", "ci", "commander"], .color⟩,
    ⟨"card_frame_data", .jsonbObject, ["frame"], .text⟩,
    ⟨"card_keywords", .jsonbObject, ["keyword", "kw"], .text⟩,
    ⟨"card_name", .text, ["name"], .text⟩,
    ⟨"card_subtypes", .jsonbArray, ["subtype", "subtypes"], .text⟩,
    ⟨"card_types", .jsonbArray, ["type", "types", "t"], .text⟩,
    ⟨"cmc", .numeric, ["cmc", "mv", "manavalue"], .numeric⟩,
    ⟨"creature_power", .numeric, ["power", "pow"], .numeric⟩,
    ⟨"creature_toughness", .numeric, ["toughness", "tou"], .numeric⟩,
    ⟨"power_plus_toughness", .numeric, ["powtou", "pt"], .numeric⟩,
    ⟨"planeswalker_loyalty", .numeric, ["loyalty", "loy"], .numeric⟩,
    ⟨"edhrec_rank", .numeric, ["edhrec", "edhrecrank", "edhrec_rank"], .numeric⟩,
    ⟨"mana_cost_jsonb", .jsonbObject, ["mana", "m"], .mana⟩,
    ⟨"devotion", .jsonbObject, ["devotion"], .mana⟩,
    ⟨"price_usd", .numeric, ["usd"], .numeric⟩,
    ⟨"price_eur", .numeric, ["eur"], .numeric⟩,
    ⟨"price_tix", .numeric, ["tix"], .numeric⟩,
    ⟨"price_usd_foil", .numeric, ["usdfoil"], .numeric⟩,
    ⟨"print_count", .numeric, ["prints"], .numeric⟩,
    ⟨"set_count", .numeric, ["sets"], .numeric⟩,
    ⟨"paper_print_count", .numeric, ["paperprints"], .numeric⟩,
    ⟨"paper_set_count", .numeric, ["papersets"], .numeric⟩,
    ⟨"illustration_count", .numeric, ["illustrations"], .numeric⟩,
    ⟨"artist_count", .numeric, ["artists"], .numeric⟩,
    ⟨"produced_mana", .jsonbObject, ["produces"], .color⟩,
    ⟨"raw_card_blob", .jsonbObject, [], .text⟩,
    ⟨"oracle_id", .text, ["oracleid", "oracle_id"], .text⟩,
    ⟨"scryfall_id", .text, ["scryfallid", "scryfall_id"], .text⟩,
    ⟨"illustration_id", .text, ["illustrationid", "illustration_id"], .text⟩,
    ⟨"mtgo_id", .text, ["mtgoid", "mtgo_id", "mtgo"], .text⟩,
    ⟨"arena_id", .text, ["arenaid", "arena_id", "arena"], .text⟩,
    ⟨"tcgplayer_id", .text, ["tcgplayerid", "tcgplayer_id", "tcgplayer"], .text⟩,
    ⟨"multiverse_id", .text, ["multiverseid", "multiverse_id", "multiverse"], .text⟩,
    ⟨"oracle_text", .text, ["oracle", "o", "fo", "fulloracle"], .text⟩,
    ⟨"flavor_text", .text, ["flavor", "ft"], .text⟩,
    ⟨"lore", .text, ["lore"], .text⟩,
    ⟨"cheapest", .text, ["cheapest"], .text⟩,
    ⟨"card_oracle_tags", .jsonbObject, ["oracle_tags", "otag", "oracletag", "function"], .text⟩,
    ⟨"card_art_tags", .jsonbObject, ["art_tags", "art", "atag", "arttag"], .text⟩,
    ⟨"card_is_tags", .jsonbObject, ["is", "has"], .text⟩,
    ⟨"card_is_tags", .jsonbObject, ["not"], .text⟩,
    ⟨"card_is_tags", .jsonbObject, ["game"], .text⟩,
    ⟨"card_in_tags", .jsonbObject, ["in"], .text⟩,
    ⟨"card_rarity_int", .numeric, ["rarity", "r"], .rarity⟩,
    ⟨"card_set_code", .text, ["set", "s", "e", "edition"], .text⟩,
    ⟨"collector_number", .text, ["number", "cn"], .text⟩,
    ⟨"collector_number_int", .numeric, ["number", "cn", "collector", "collectornumber"], .numeric⟩,
    ⟨"card_legalities", .jsonbObject, ["format", "f", "legal", "banned", "restricted"], .legality⟩,
    ⟨"card_lang", .text, ["lang", "language"], .text⟩,
    ⟨"card_set_type", .text, ["set_type", "settype", "st"], .text⟩,
    ⟨"card_layout", .text, ["layout"], .text⟩,
    ⟨"card_border", .text, ["border"], .text⟩,
    ⟨"card_watermark", .text, ["watermark", "wm"], .text⟩,
    ⟨"security_stamp", .text, ["stamp"], .text⟩,
    ⟨"released_at", .date, ["date"], .date⟩,
    ⟨"released_at", .date, ["year"], .year⟩]

/-- `ALIAS_TO_FIELD_INFOS.get(alias) ?? []`. -/
def aliasToFieldInfos (name : String) : List FieldInfo :=
  DB_COLUMNS.filter (·.searchAliases.contains name)

def fieldInfosOf (name : String) (pc : ParserClass) : List FieldInfo :=
  (aliasToFieldInfos name).filter (·.parserClass = pc)

/-- `ALIAS_TO_PC.get(alias)`: an alias with a numeric column is numeric. -/
def aliasToPC (name : String) : Option ParserClass :=
  match aliasToFieldInfos name with
  | [] => none
  | fi :: fis =>
    some (if (fi :: fis).any (·.parserClass = .numeric) then .numeric else fi.parserClass)

/-- Whether the alias names both a numeric and a text column. -/
def isDualNumText (name : String) : Bool :=
  (aliasToFieldInfos name).any (·.parserClass = .numeric)
    && (aliasToFieldInfos name).any (·.parserClass = .text)

def isNumericAlias (name : String) : Bool := aliasToPC name = some .numeric
