import TemplateScan.Dialect.Standard

/-! # The storefront dialect — the standard one with the tags and objects of shop themes -/

namespace TemplateScan.Dialect

/-- The schema of a picture. -/
def imageSchema : Schema :=
  .withNames ["alt", "height", "id", "src", "width"]

/-- The schema of one way in which a product is sold. -/
def variantSchema : Schema :=
  .withNames ["available", "id", "price", "sku", "title"]

/-- The schema of a product. -/
def productSchema : Schema :=
  (Schema.withNames
      ["available", "description", "handle", "id", "price", "tags", "title", "url", "vendor"])
    |>.withProperty "featured_image" imageSchema
    |>.withProperty "images" imageSchema
    |>.withProperty "variants" variantSchema
    |>.withProperty "selected_or_first_available_variant" variantSchema

/-- A block whose body is written in the given language. -/
def embeddedBlock (language : Language) : TagRule :=
  (TagRule.ofKind .embedded).asBlock.inLanguage language

/-- What shop themes add to the standard dialect. -/
def themeExtension : Dialect where
  tags := .ofList
    [("schema", embeddedBlock .json),
     ("style", embeddedBlock .css),
     ("stylesheet", embeddedBlock .css),
     ("javascript", embeddedBlock .javascript),
     ("form", (TagRule.ofKind .other).asBlock.withArguments),
     ("paginate", (TagRule.ofKind .other).asBlock.withArguments),
     ("section", (TagRule.ofKind .inclusion).withArguments),
     ("layout", (TagRule.ofKind .inclusion).withArguments)]
  filters := .ofList
    [("money", .ofArguments []),
     ("json", .ofArguments []),
     ("handleize", .ofArguments []),
     ("asset_url", .ofArguments []),
     ("img_url", .ofArguments [textArgument]),
     ("image_url", .ofArguments [(ArgumentRule.ofTypes []).ofKind .named]),
     ("t", .ofArguments [(ArgumentRule.ofTypes []).ofKind .spread])]
  objects := .ofList
    [("product", productSchema),
     ("collection", .withNames ["description", "handle", "id", "products", "title", "url"]),
     ("cart", .withNames ["item_count", "items", "note", "total_price"]),
     ("shop", .withNames ["currency", "domain", "email", "name", "url"]),
     ("settings", .any),
     ("section", .any)]
  associates := ["script", "style"]

/-- The standard dialect with the theme tags, filters and objects laid over it. -/
def storefront : Dialect :=
  standard.overlay themeExtension

end TemplateScan.Dialect
